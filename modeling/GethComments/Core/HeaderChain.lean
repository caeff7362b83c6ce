import GethComments.Core.BlockChain
import GethComments.Lib.Lineage
import GethComments.Lib.Run

/-!
# The header chain

`WriteHeader` with the two loops that keep the canonical index, over the database and the caches
of a `HeaderChain`. The coin of a tie is an argument, and what the caches lose or load between two
calls is an operation of its own.

* `staleNumbers_eq`: the loop that overwrites stale numbers stops where the branches part;
* `reindex_eq`: the index after both loops is that of the new head;
* `follows_write`, `follows_run`: one call, and every run of calls that writes parents first;
* `heaviest_header_chain`: the header chain follows the heaviest branch;
* `canonical_lost_at_last_number`: a header of number `2 ^ 64 - 1` loses the index.
-/

namespace GethComments

open Function List Option

structure HeaderChain where
  /-- The database: headers and total difficulties by number and hash. -/
  headers : UInt64 → Hash → Option Header
  tds : UInt64 → Hash → Option Nat
  /-- The canonical hash of a number. -/
  canonical : UInt64 → Option Hash
  headHeaderHash : Hash
  currentHeader : Header
  currentHeaderHash : Hash
  headerCache : Hash → Option Header
  tdCache : Hash → Option Nat

namespace Header

variable [HashFns]

def ChildOf (h p : Header) : Prop := h.parentHash = p.hash ∧ h.number = p.number + 1

theorem numberU64_sub_one {h p : Header} (hc : h.ChildOf p) : h.numberU64 - 1 = p.numberU64 := by
  unfold numberU64
  rw [hc.2, UInt64.ofNat_add]
  exact UInt64.add_sub_cancel _ _

end Header

namespace HeaderChain

def getTd (hc : HeaderChain) (hash : Hash) (number : UInt64) : Option Nat :=
  (hc.tdCache hash).or (hc.tds number hash)

def getHeader (hc : HeaderChain) (hash : Hash) (number : UInt64) : Option Header :=
  (hc.headerCache hash).or (hc.headers number hash)

/-- Whether `n` numbers from `i` on are assigned. -/
def assigned (canonical : UInt64 → Option Hash) : Nat → UInt64 → Bool
  | 0, _ => true
  | n + 1, i => (canonical i).isSome && assigned canonical n (i + 1)

/-- Whether the loop that deletes canonical numbers above `number` deletes `i`: from
`number + 1` on, which wraps around, it stops at the first number without a hash. -/
def deletes (canonical : UInt64 → Option Hash) (number i : UInt64) : Bool :=
  assigned canonical ((i - (number + 1)).toNat + 1) (number + 1)

/-- The stale numbers below a new head with their new hashes. The loop goes back from the parent of
the new head until the index agrees; `none` where a header is missing. -/
def staleNumbers (hc : HeaderChain) : Nat → Hash → UInt64 → Option (List (UInt64 × Hash))
  | n, headHash, headNumber =>
    if hc.canonical headNumber = some headHash then some []
    else
      match n with
      | 0 => none
      | n + 1 => do
          let headHeader ← hc.getHeader headHash headNumber
          let rest ← hc.staleNumbers n headHeader.parentHash (headHeader.numberU64 - 1)
          some ((headNumber, headHash) :: rest)

def writeCanonicalHash (canonical : UInt64 → Option Hash) (p : UInt64 × Hash) :
    UInt64 → Option Hash :=
  update canonical p.1 (some p.2)

section

variable [HashFns]

/-- `WriteTd` and `WriteHeader` of the database. -/
def storeHeader (hc : HeaderChain) (header : Header) (td : Nat) : HeaderChain :=
  let n := header.numberU64
  { hc with
    headers :=
      update hc.headers n (update (hc.headers n) header.hash (some header))
    tds := update hc.tds n (update (hc.tds n) header.hash (some td)) }

def cacheHeader (hc : HeaderChain) (header : Header) (td : Nat) : HeaderChain :=
  { hc with
    tdCache := update hc.tdCache header.hash (some td)
    headerCache := update hc.headerCache header.hash (some header) }

/-- The index for a new head: the numbers above are deleted, the stale ones below overwritten. -/
def reindex (canonical : UInt64 → Option Hash) (header : Header) (stale : List (UInt64 × Hash)) :
    UInt64 → Option Hash :=
  let number := header.numberU64
  let kept : UInt64 → Option Hash := fun i =>
    if deletes canonical number i then none else canonical i
  writeCanonicalHash (stale.foldl writeCanonicalHash kept) (number, header.hash)

/-- The markers of a new head. Both loops read the index as it was before. -/
def advance (hc : HeaderChain) (header : Header) : Option HeaderChain := do
  let number := header.numberU64
  let stale ← hc.staleNumbers number.toNat header.parentHash (number - 1)
  some { hc with
    canonical := reindex hc.canonical header stale
    headHeaderHash := header.hash
    currentHeaderHash := header.hash
    currentHeader := header }

/-- `WriteHeader`, with the outcome of the coin; `none` where a nil pointer is read. -/
def writeHeader (hc : HeaderChain) (header : Header) (coin : Bool) :
    Option (HeaderChain × Except ChainError WriteStatus) :=
  match hc.getTd header.parentHash (header.numberU64 - 1) with
  | none => some (hc, .error .unknownAncestor)
  | some ptd => do
      let localTd ← hc.getTd hc.currentHeaderHash hc.currentHeader.numberU64
      let externTd := header.difficulty + ptd
      let hc := hc.storeHeader header externTd
      if externTd > localTd ∨ externTd = localTd ∧ coin then
        let hc ← hc.advance header
        some (hc.cacheHeader header externTd, .ok .canonStatTy)
      else some (hc.cacheHeader header externTd, .ok .sideStatTy)

/-! ## Runs -/

inductive Op where
  | writeHeader (header : Header) (coin : Bool)
  /-- A total difficulty or a header is read, and cached if it is found. -/
  | getTd (hash : Hash) (number : UInt64)
  | getHeader (hash : Hash) (number : UInt64)
  /-- The caches keep the given hashes. -/
  | evict (keepHeader keepTd : Hash → Bool)

def step (hc : HeaderChain) : Op → Option HeaderChain
  | .writeHeader header coin => (hc.writeHeader header coin).map Prod.fst
  | .getTd hash number =>
      some { hc with tdCache := update hc.tdCache hash (hc.getTd hash number) }
  | .getHeader hash number =>
      some { hc with headerCache := update hc.headerCache hash (hc.getHeader hash number) }
  | .evict keepHeader keepTd =>
      some { hc with
        headerCache := fun h => if keepHeader h then hc.headerCache h else none
        tdCache := fun h => if keepTd h then hc.tdCache h else none }

def run (hc : HeaderChain) (ops : List Op) : Option HeaderChain := ops.foldlM step hc

/-- `NewHeaderChain` on a database with the genesis header alone. -/
def newHeaderChain (g : Header) : HeaderChain where
  headers n h := if n = g.numberU64 ∧ h = g.hash then some g else none
  tds n h := if n = g.numberU64 ∧ h = g.hash then some g.difficulty else none
  canonical n := if n = g.numberU64 then some g.hash else none
  headHeaderHash := g.hash
  currentHeader := g
  currentHeaderHash := g.hash
  headerCache h := if h = g.hash then some g else none
  tdCache _ := none

/-- The headers written after a run, from those written before. -/
def written (W : List Header) : List Op → List Header
  | [] => W
  | .writeHeader h _ :: ops => written (h :: W) ops
  | _ :: ops => written W ops

variable {p : Header} {n : Nat}

/-- Every header written has a parent that was written before. -/
def ParentsFirst (W : List Header) : List Op → Prop
  | [] => True
  | .writeHeader h _ :: ops => (∃ p ∈ W, h.ChildOf p) ∧ ParentsFirst (h :: W) ops
  | _ :: ops => ParentsFirst W ops

/-! ## Trees of headers -/

/-- A tree of headers: each number is that of the parent plus one, and a hash identifies a
header. -/
structure HeaderTree (g : Header) (T : Set Header) : Prop where
  genesis : g ∈ T
  number_genesis : g.number = 0
  parent : ∀ h ∈ T, h ≠ g → ∃ p ∈ T, h.ChildOf p
  eq_of_hash : ∀ h ∈ T, ∀ h' ∈ T, h.hash = h'.hash → h = h'

abbrev Ancestry (g : Header) (T : Set Header) : Header → List Header → Prop :=
  Lineage g T Header.ChildOf

def totalDifficulty (hs : List Header) : Nat := (hs.map Header.difficulty).sum

variable {g : Header} {T : Set Header} {hc : HeaderChain} {W : List Header}

theorem HeaderTree.isTree (hT : HeaderTree g T) : IsTree g T Header.ChildOf Header.number where
  root_mem := hT.genesis
  level_root := hT.number_genesis
  parent := hT.parent
  level_child _ _ h := h.2
  unique _ p hp q hq h h' := hT.eq_of_hash p hp q hq (h.1.symm.trans h'.1)

/-- The numbers leave room for the number above the head. -/
def Numbered (T : Set Header) : Prop := ∀ h ∈ T, h.number + 1 < 2 ^ 64

omit [HashFns] in
theorem Numbered.toNat (hN : Numbered T) {h : Header} (hh : h ∈ T) :
    h.numberU64.toNat = h.number := by
  have := hN h hh
  rw [Header.numberU64, UInt64.toNat_ofNat']
  exact Nat.mod_eq_of_lt (by omega)

omit [HashFns] in
theorem Numbered.inj (hN : Numbered T) {h h' : Header} (hh : h ∈ T) (hh' : h' ∈ T) :
    h.numberU64 = h'.numberU64 ↔ h.number = h'.number := by
  rw [← UInt64.toNat_inj, hN.toNat hh, hN.toNat hh']

/-! ## What is stored -/

omit [HashFns] in
theorem update_update_apply {α : Type} (m : UInt64 → Hash → Option α) (n k : UInt64) (x y : Hash)
    (v : Option α) : update m k (update (m k) y v) n x =
      if n = k ∧ x = y then v else m n x := by
  by_cases hn : n = k
  · subst hn
    simp [update_apply]
  · simp [hn]

omit [HashFns] in
theorem of_update_eq_some {α : Type} {m : Hash → Option α} {k x : Hash} {v : Option α} {y : α}
    (h : update m k v x = some y) : (x = k ∧ v = some y) ∨ m x = some y := by
  rw [update_apply] at h
  split at h
  case isTrue hx => exact Or.inl ⟨hx, h⟩
  case isFalse => exact Or.inr h

/-- The value is the total difficulty of the written header of that hash. -/
def Weighs (g : Header) (T : Set Header) (W : List Header) (x : Hash) (td : Nat) : Prop :=
  ∃ h ∈ W, h.hash = x ∧ ∀ hs, Ancestry g T h hs → td = totalDifficulty hs

variable {x : Hash} {td : Nat} {h : Header} {hs cs : List Header} {canonical : UInt64 → Option Hash}
  {i : UInt64}

theorem Weighs.mono (h : Weighs g T W x td) (k : Header) : Weighs g T (k :: W) x td := by
  obtain ⟨a, ha, hx, htd⟩ := h
  exact ⟨a, mem_cons_of_mem _ ha, hx, htd⟩

theorem Weighs.eq (hT : HeaderTree g T) (hW : ∀ h ∈ W, h ∈ T) (hh : h ∈ W)
    (hhs : Ancestry g T h hs) (hw : Weighs g T W h.hash td) :
    td = totalDifficulty hs := by
  obtain ⟨a, ha, hx, htd⟩ := hw
  obtain rfl := hT.eq_of_hash a (hW a ha) h (hW h hh) hx
  exact htd hs hhs

/-- Database and caches hold the written headers and their total difficulties. -/
structure Stores (g : Header) (T : Set Header) (W : List Header) (hc : HeaderChain) : Prop where
  mem : ∀ h ∈ W, h ∈ T
  genesis : g ∈ W
  parent : ∀ h ∈ W, ∀ p ∈ T, h.ChildOf p → p ∈ W
  headers : ∀ h ∈ W, hc.headers h.numberU64 h.hash = some h
  tds : ∀ h ∈ W, (hc.tds h.numberU64 h.hash).isSome
  of_headers : ∀ n x h, hc.headers n x = some h → h ∈ W ∧ h.hash = x
  of_tds : ∀ n x td, hc.tds n x = some td → Weighs g T W x td
  of_headerCache : ∀ x h, hc.headerCache x = some h → h ∈ W ∧ h.hash = x
  of_tdCache : ∀ x td, hc.tdCache x = some td → Weighs g T W x td

namespace Stores

section

variable (hS : Stores g T W hc)

include hS

theorem of_getHeader {n : UInt64} (hh : hc.getHeader x n = some h) : h ∈ W ∧ h.hash = x := by
  rcases or_eq_some_iff.mp hh with hh | ⟨-, hh⟩
  · exact hS.of_headerCache x h hh
  · exact hS.of_headers n x h hh

theorem of_getTd {n : UInt64} (hh : hc.getTd x n = some td) : Weighs g T W x td := by
  rcases or_eq_some_iff.mp hh with hh | ⟨-, hh⟩
  · exact hS.of_tdCache x td hh
  · exact hS.of_tds n x td hh

theorem getHeader_eq (hT : HeaderTree g T) (hh : h ∈ W) :
    hc.getHeader h.hash h.numberU64 = some h := by
  cases heq : hc.getHeader h.hash h.numberU64 with
  | none =>
    have := (or_eq_none_iff.mp heq).2
    rw [hS.headers h hh] at this
    cases this
  | some h' =>
    obtain ⟨hh', hx⟩ := hS.of_getHeader heq
    rw [hT.eq_of_hash h' (hS.mem h' hh') h (hS.mem h hh) hx]

theorem getTd_eq (hT : HeaderTree g T) (hh : h ∈ W) (hhs : Ancestry g T h hs) :
    hc.getTd h.hash h.numberU64 = some (totalDifficulty hs) := by
  cases heq : hc.getTd h.hash h.numberU64 with
  | none =>
    have := (or_eq_none_iff.mp heq).2
    have htd := hS.tds h hh
    rw [this] at htd
    cases htd
  | some td => rw [(hS.of_getTd heq).eq hT hS.mem hh hhs]

theorem mem_ancestry {a : Header} (hh : h ∈ W) (hhs : Ancestry g T h hs) (ha : a ∈ hs) : a ∈ W :=
  hhs.closed hS.parent hh ha

theorem storeHeader (hT : HeaderTree g T) (hh : h ∈ T) (hp : p ∈ W)
    (hchild : h.ChildOf p) (hw : Weighs g T (h :: W) h.hash td) :
    Stores g T (h :: W) (hc.storeHeader h td) := by
  have hcase : ∀ a ∈ h :: W, a.hash = h.hash ∧ a = h ∨ a.hash ≠ h.hash ∧ a ∈ W := by
    intro a ha
    rcases mem_cons.mp ha with rfl | ha
    · exact Or.inl ⟨rfl, rfl⟩
    · by_cases heq : a.hash = h.hash
      · exact Or.inl ⟨heq, hT.eq_of_hash a (hS.mem a ha) h hh heq⟩
      · exact Or.inr ⟨heq, ha⟩
  constructor
  case mem => exact forall_mem_cons.mpr ⟨hh, hS.mem⟩
  case genesis => exact mem_cons_of_mem _ hS.genesis
  case parent =>
    refine forall_mem_cons.mpr ⟨fun q hq hq' => ?_, fun a ha q hq hq' => ?_⟩
    · obtain rfl := hT.eq_of_hash q hq p (hS.mem p hp) (hq'.1.symm.trans hchild.1)
      exact mem_cons_of_mem _ hp
    · exact mem_cons_of_mem _ (hS.parent a ha q hq hq')
  case headers =>
    intro a ha
    simp only [HeaderChain.storeHeader, update_update_apply]
    rcases hcase a ha with ⟨-, rfl⟩ | ⟨hne, ha⟩
    · simp
    · simp [hne, hS.headers a ha]
  case tds =>
    intro a ha
    simp only [HeaderChain.storeHeader, update_update_apply]
    rcases hcase a ha with ⟨-, rfl⟩ | ⟨hne, ha⟩
    · simp
    · simp [hne, hS.tds a ha]
  case of_headers =>
    intro n x a ha
    simp only [HeaderChain.storeHeader, update_update_apply] at ha
    split at ha
    case isTrue hx =>
      cases ha
      exact ⟨List.mem_cons_self, hx.2.symm⟩
    case isFalse => exact (hS.of_headers n x a ha).imp_left (mem_cons_of_mem _)
  case of_tds =>
    intro n x td ha
    simp only [HeaderChain.storeHeader, update_update_apply] at ha
    split at ha
    case isTrue hx =>
      cases ha
      exact hx.2 ▸ hw
    case isFalse => exact (hS.of_tds n x td ha).mono h
  case of_headerCache =>
    intro x a ha
    exact (hS.of_headerCache x a ha).imp_left (mem_cons_of_mem _)
  case of_tdCache =>
    intro x td ha
    exact (hS.of_tdCache x td ha).mono h

theorem of_caches {hc' : HeaderChain} (hheaders : hc'.headers = hc.headers)
    (htds : hc'.tds = hc.tds)
    (hcache : ∀ x h, hc'.headerCache x = some h → (h ∈ W ∧ h.hash = x) ∨ hc.headerCache x = some h)
    (htdCache : ∀ x td, hc'.tdCache x = some td → Weighs g T W x td ∨ hc.tdCache x = some td) :
    Stores g T W hc' where
  mem := hS.mem
  genesis := hS.genesis
  parent := hS.parent
  headers := hheaders ▸ hS.headers
  tds := htds ▸ hS.tds
  of_headers := hheaders ▸ hS.of_headers
  of_tds := htds ▸ hS.of_tds
  of_headerCache x h hx := (hcache x h hx).elim id (hS.of_headerCache x h)
  of_tdCache x td hx := (htdCache x td hx).elim id (hS.of_tdCache x td)

theorem cacheHeader (hh : h ∈ W) (hw : Weighs g T W h.hash td) :
    Stores g T W (hc.cacheHeader h td) := by
  refine hS.of_caches rfl rfl (fun x a ha => ?_) (fun x td' ha => ?_)
  · refine (of_update_eq_some ha).imp_left ?_
    rintro ⟨rfl, ⟨⟩⟩
    exact ⟨hh, rfl⟩
  · refine (of_update_eq_some ha).imp_left ?_
    rintro ⟨rfl, ⟨⟩⟩
    exact hw

end

end Stores

/-! ## The index -/

/-- The index holds the ancestry of the current header and nothing else. -/
def Indexes (hc : HeaderChain) (cs : List Header) : Prop :=
  ∀ i x, hc.canonical i = some x ↔ ∃ a ∈ cs, a.numberU64 = i ∧ a.hash = x

omit [HashFns] in
theorem assigned_eq_true :
    assigned canonical n i = true ↔ ∀ d < n, (canonical (i + UInt64.ofNat d)).isSome := by
  induction n generalizing i with
  | zero => simp [assigned]
  | succ n ih =>
    rw [assigned, Bool.and_eq_true, ih]
    constructor
    · rintro ⟨h0, h⟩ d hd
      cases d with
      | zero => simpa using h0
      | succ d =>
        have := h d (by omega)
        rwa [UInt64.add_assoc, UInt64.add_comm 1, ← UInt64.ofNat_one, ← UInt64.ofNat_add] at this
    · intro h
      refine ⟨by simpa using h 0 (by omega), fun d hd => ?_⟩
      have := h (d + 1) (by omega)
      rwa [UInt64.ofNat_add, UInt64.add_comm (UInt64.ofNat d), ← UInt64.add_assoc] at this

omit [HashFns] in
/-- Without a hash at the last number of all, the deletion does not wrap around. -/
theorem deletes_of_le {n : UInt64} (h : i ≤ n) (hn : n.toNat + 1 < 2 ^ 64)
    (hlast : ∀ j : UInt64, j.toNat + 1 = 2 ^ 64 → canonical j = none) :
    deletes canonical n i = false := by
  rw [← Bool.not_eq_true, deletes, assigned_eq_true]
  intro hall
  rw [UInt64.le_iff_toNat_le] at h
  have hlt := i.toNat_lt
  have hd := hall (2 ^ 64 - 2 - n.toNat) (by
    simp only [UInt64.toNat_sub, UInt64.toNat_add, UInt64.toNat_one]
    omega)
  rw [hlast] at hd
  · cases hd
  · simp only [UInt64.toNat_add, UInt64.toNat_one, UInt64.toNat_ofNat']
    omega

omit [HashFns] in
theorem deletes_of_lt {n : UInt64} (h : n < i) (hall : ∀ j, n < j → j ≤ i → (canonical j).isSome) :
    deletes canonical n i = true := by
  rw [deletes, assigned_eq_true]
  intro d hd
  rw [UInt64.lt_iff_toNat_lt] at h
  have hlt := i.toNat_lt
  simp only [UInt64.toNat_sub, UInt64.toNat_add, UInt64.toNat_one] at hd
  have hnum : (n + 1 + UInt64.ofNat d).toNat = n.toNat + 1 + d := by
    simp only [UInt64.toNat_add, UInt64.toNat_one, UInt64.toNat_ofNat']
    omega
  apply hall
  · rw [UInt64.lt_iff_toNat_lt, hnum]
    omega
  · rw [UInt64.le_iff_toNat_le, hnum]
    omega

omit [HashFns] in
theorem foldl_writeCanonicalHash_of_notMem (ps : List (UInt64 × Hash)) (m : UInt64 → Option Hash)
    (h : ∀ p ∈ ps, p.1 ≠ i) :
    ps.foldl writeCanonicalHash m i = m i := by
  induction ps generalizing m with
  | nil => rfl
  | cons p ps ih =>
    obtain ⟨hp, hps⟩ := forall_mem_cons.mp h
    rw [foldl_cons, ih _ hps]
    exact update_of_ne hp.symm _ _

omit [HashFns] in
theorem foldl_writeCanonicalHash_of_mem (ps : List (UInt64 × Hash))
    (m : UInt64 → Option Hash) (hps : ps.Pairwise fun p q => q.1 ≠ p.1) {p : UInt64 × Hash}
    (h : p ∈ ps) : ps.foldl writeCanonicalHash m p.1 = some p.2 := by
  induction ps generalizing m with
  | nil => cases h
  | cons q ps ih =>
    obtain ⟨hq, hps⟩ := pairwise_cons.mp hps
    rw [foldl_cons]
    rcases mem_cons.mp h with rfl | h
    · rw [foldl_writeCanonicalHash_of_notMem ps _ hq]
      exact update_self _ _ _
    · exact ih _ hps h

theorem staleNumbers_eq (hS : Stores g T W hc) (hT : HeaderTree g T)
    (hcs : hc.Indexes cs) (hg : g ∈ cs) {ps : List Header} (hp : p ∈ W) (hps : Ancestry g T p ps)
    (hn : p.number ≤ n) :
    ∃ stale c rest, ps = stale ++ c :: rest ∧ hc.canonical c.numberU64 = some c.hash ∧
      hc.staleNumbers n p.hash p.numberU64 = some (stale.map fun a => (a.numberU64, a.hash)) := by
  induction hps generalizing n with
  | root =>
    have hcan : hc.canonical g.numberU64 = some g.hash := (hcs _ _).mpr ⟨g, hg, rfl, rfl⟩
    exact ⟨[], g, [], rfl, hcan, by cases n <;> simp [staleNumbers, hcan]⟩
  | @child p q qs hq hchild hqs ih =>
    by_cases hcan : hc.canonical p.numberU64 = some p.hash
    · exact ⟨[], p, qs, rfl, hcan, by cases n <;> simp [staleNumbers, hcan]⟩
    · have hnum := hchild.2
      obtain ⟨m, rfl⟩ : ∃ m, n = m + 1 := ⟨n - 1, by omega⟩
      obtain ⟨stale, c, rest, rfl, hcan', heq⟩ := ih (hS.parent p hp q hq hchild)
        (show q.number ≤ m by omega)
      refine ⟨p :: stale, c, rest, rfl, hcan', ?_⟩
      rw [staleNumbers, if_neg hcan, hS.getHeader_eq hT hp]
      rw [← hchild.1, ← Header.numberU64_sub_one hchild] at heq
      show (hc.staleNumbers m p.parentHash (p.numberU64 - 1)).bind _ = _
      rw [heq]
      rfl

theorem indexes_of_forall (hmem : ∀ a ∈ hs, canonical a.numberU64 = some a.hash)
    (hother : ∀ i, (∀ a ∈ hs, a.numberU64 ≠ i) → canonical i = none) (i : UInt64) (x : Hash) :
    canonical i = some x ↔ ∃ a ∈ hs, a.numberU64 = i ∧ a.hash = x := by
  constructor
  · intro hx
    by_cases hex : ∃ a ∈ hs, a.numberU64 = i
    · obtain ⟨a, ha, rfl⟩ := hex
      rw [hmem a ha] at hx
      exact ⟨a, ha, rfl, some.inj hx⟩
    · rw [hother i fun a ha heq => hex ⟨a, ha, heq⟩] at hx
      cases hx
  · rintro ⟨a, ha, rfl, rfl⟩
    exact hmem a ha

section Reindex

variable {cur h c : Header} {above stale rest : List Header}

/-- Two branches part above `c`. After both loops the index holds the second one. -/
theorem reindex_eq (hT : HeaderTree g T) (hN : Numbered T) (hcurT : cur ∈ T) (hhT : h ∈ T)
    (hcur : Ancestry g T cur (above ++ c :: rest)) (hnew : Ancestry g T h (h :: stale ++ c :: rest))
    (hindex : ∀ i x, canonical i = some x ↔ ∃ a ∈ above ++ c :: rest, a.numberU64 = i ∧ a.hash = x)
    (i : UInt64) (x : Hash) :
    reindex canonical h (stale.map fun a => (a.numberU64, a.hash)) i = some x ↔
      ∃ a ∈ h :: stale ++ c :: rest, a.numberU64 = i ∧ a.hash = x := by
  have hmemT : ∀ a ∈ h :: stale ++ c :: rest, a ∈ T := fun a => hnew.mem hhT
  have hcurT' : ∀ a ∈ above ++ c :: rest, a ∈ T := fun a => hcur.mem hcurT
  have hlevels := hnew.pairwise_level hT.isTree.level_child
  rw [cons_append, pairwise_cons, pairwise_append] at hlevels
  obtain ⟨hbelow, hstale, -, hparts⟩ := hlevels
  have hsome : ∀ i : UInt64, i.toNat ≤ cur.number → (canonical i).isSome := by
    intro i hi
    obtain ⟨b, hb, hlevel⟩ := hcur.exists_level hT.isTree hi
    have hnum : b.numberU64 = i := by rw [← UInt64.toNat_inj, hN.toNat (hcurT' b hb), hlevel]
    rw [(hindex i b.hash).mpr ⟨b, hb, hnum, rfl⟩]
    rfl
  have hnone : ∀ i : UInt64, cur.number < i.toNat → canonical i = none := by
    intro i hi
    rw [eq_none_iff_forall_ne_some]
    intro x hx
    obtain ⟨a, ha, rfl, -⟩ := (hindex i x).mp hx
    rw [hN.toNat (hcurT' a ha)] at hi
    exact absurd (hcur.level_le hT.isTree.level_child ha) (Nat.not_le.mpr hi)
  refine indexes_of_forall (fun a ha => ?_) (fun i hi => ?_) i x
  · rw [cons_append] at ha
    rcases mem_cons.mp ha with rfl | ha
    · exact update_self _ _ _
    · have hlt := hbelow a ha
      have hne : a.numberU64 ≠ h.numberU64 := fun heq => by
        rw [hN.inj (hmemT a (mem_cons_of_mem _ ha)) hhT] at heq
        omega
      refine (update_of_ne hne _ _).trans ?_
      rcases mem_append.mp ha with ha | ha
      · refine foldl_writeCanonicalHash_of_mem _ _ ?_
          (mem_map_of_mem (f := fun a : Header => (a.numberU64, a.hash)) ha)
        refine pairwise_map.mpr (hstale.imp_of_mem fun {b d} hb hd hlt heq => ?_)
        rw [hN.inj (hmemT d (by simp [hd])) (hmemT b (by simp [hb]))] at heq
        omega
      · rw [foldl_writeCanonicalHash_of_notMem _ _ fun q hq heq => ?_]
        · have hle : a.numberU64 ≤ h.numberU64 := by
            rw [UInt64.le_iff_toNat_le, hN.toNat (hmemT a (by simp [ha])), hN.toNat hhT]
            omega
          have hroom : h.numberU64.toNat + 1 < 2 ^ 64 := by
            rw [hN.toNat hhT]
            exact hN h hhT
          have hlast : ∀ j : UInt64, j.toNat + 1 = 2 ^ 64 → canonical j = none := fun j hj =>
            hnone j (by have := hN cur hcurT; omega)
          rw [deletes_of_le hle hroom hlast]
          exact (hindex _ _).mpr ⟨a, mem_append_right _ ha, rfl, rfl⟩
        · obtain ⟨b, hb, rfl⟩ := mem_map.mp hq
          rw [hN.inj (hmemT b (by simp [hb])) (hmemT a (by simp [ha]))] at heq
          have := hparts b hb a ha
          omega
  · have hlt : h.number < i.toNat := by
      by_contra hle
      obtain ⟨b, hb, hlevel⟩ := hnew.exists_level hT.isTree (Nat.not_lt.mp hle)
      refine hi b hb ?_
      rw [← UInt64.toNat_inj, hN.toNat (hmemT b hb), hlevel]
    refine (update_of_ne (hi h (by simp)).symm _ _).trans ?_
    rw [foldl_writeCanonicalHash_of_notMem _ _ fun q hq => ?_]
    · by_cases hle : i.toNat ≤ cur.number
      · refine if_pos (deletes_of_lt ?_ fun j _ hj => hsome j ?_)
        · rw [UInt64.lt_iff_toNat_lt, hN.toNat hhT]
          exact hlt
        · exact (UInt64.le_iff_toNat_le.mp hj).trans hle
      · simp [hnone i (Nat.not_le.mp hle)]
    · obtain ⟨b, hb, rfl⟩ := mem_map.mp hq
      exact hi b (by simp [hb])

end Reindex

theorem advance_eq (hS : Stores g T W hc) (hT : HeaderTree g T) (hN : Numbered T)
    (hcurrent : hc.currentHeader ∈ W) (hcs : Ancestry g T hc.currentHeader cs)
    (hindex : hc.Indexes cs) {ps : List Header} (hh : h ∈ T) (hp : p ∈ W)
    (hchild : h.ChildOf p) (hps : Ancestry g T p ps) :
    ∃ stale, hc.staleNumbers h.numberU64.toNat h.parentHash (h.numberU64 - 1) = some stale ∧
      ∀ i x, reindex hc.canonical h stale i = some x ↔
        ∃ a ∈ h :: ps, a.numberU64 = i ∧ a.hash = x := by
  obtain ⟨stale, c, rest, rfl, hcan, hstale⟩ := staleNumbers_eq hS hT hindex hcs.root_mem hp hps
    (show p.number ≤ h.numberU64.toNat by rw [hN.toNat hh, hchild.2]; omega)
  rw [← hchild.1, ← Header.numberU64_sub_one hchild] at hstale
  -- the index has `c`, so that it is an ancestor of the current header too
  obtain ⟨a, ha, -, hhash⟩ := (hindex _ _).mp hcan
  have hcW : c ∈ W := hS.mem_ancestry hp hps (by simp)
  have haW : a ∈ W := hS.mem_ancestry hcurrent hcs ha
  obtain rfl := hT.eq_of_hash a (hS.mem a haW) c (hS.mem c hcW) hhash
  obtain ⟨above, rest', rfl⟩ := append_of_mem ha
  obtain rfl : rest' = rest := (cons.inj (hcs.of_append.unique hT.isTree hps.of_append)).2
  exact ⟨_, hstale, reindex_eq hT hN (hS.mem _ hcurrent) hh hcs
    (.child (hS.mem p hp) hchild hps) hindex⟩

/-! ## Following the heaviest branch -/

/-- The current header is the heaviest one written, and the index holds its ancestry. -/
structure Follows (g : Header) (T : Set Header) (W : List Header) (hc : HeaderChain) : Prop where
  stores : Stores g T W hc
  current : hc.currentHeader ∈ W
  currentHash : hc.currentHeaderHash = hc.currentHeader.hash
  heaviest : ∀ h ∈ W, ∀ hs cs, Ancestry g T h hs → Ancestry g T hc.currentHeader cs →
    totalDifficulty hs ≤ totalDifficulty cs
  index : ∀ cs, Ancestry g T hc.currentHeader cs → hc.Indexes cs

theorem follows_newHeaderChain (hT : HeaderTree g T) : Follows g T [g] (newHeaderChain g) := by
  have hone : ∀ hs, Ancestry g T g hs → hs = [g] := fun hs hhs => hhs.unique hT.isTree .root
  have hw : Weighs g T [g] g.hash g.difficulty :=
    ⟨g, mem_singleton_self g, rfl, fun hs hhs => by simp [hone hs hhs, totalDifficulty]⟩
  have hroot : ∀ p, ¬ g.ChildOf p := fun p hp => by
    have := hp.2
    rw [hT.number_genesis] at this
    omega
  refine ⟨⟨?_, mem_singleton_self g, ?_, ?_, ?_, ?_, ?_, ?_, nofun⟩,
    mem_singleton_self g, rfl, ?_, ?_⟩
  · exact forall_mem_singleton.mpr hT.genesis
  · exact forall_mem_singleton.mpr fun p _ hp => absurd hp (hroot p)
  · exact forall_mem_singleton.mpr (by simp [newHeaderChain])
  · exact forall_mem_singleton.mpr (by simp [newHeaderChain])
  · intro n x h hx
    simp only [newHeaderChain, ite_none_right_eq_some, some.injEq] at hx
    obtain ⟨⟨-, rfl⟩, rfl⟩ := hx
    exact ⟨List.mem_singleton_self g, rfl⟩
  · intro n x td hx
    simp only [newHeaderChain, ite_none_right_eq_some, some.injEq] at hx
    obtain ⟨⟨-, rfl⟩, rfl⟩ := hx
    exact hw
  · intro x h hx
    simp only [newHeaderChain, ite_none_right_eq_some, some.injEq] at hx
    obtain ⟨rfl, rfl⟩ := hx
    exact ⟨List.mem_singleton_self g, rfl⟩
  · intro h hh hs cs hhs hcs
    obtain rfl := mem_singleton.mp hh
    rw [hone hs hhs, hone cs hcs]
  · intro cs hcs i x
    rw [hone cs hcs]
    simp only [newHeaderChain, ite_none_right_eq_some, some.injEq,
      mem_singleton, exists_eq_left]
    exact and_congr_left' eq_comm

theorem Follows.of_caches {hc' : HeaderChain} (hF : Follows g T W hc) (hS : Stores g T W hc')
    (hcurrent : hc'.currentHeader = hc.currentHeader)
    (hhash : hc'.currentHeaderHash = hc.currentHeaderHash)
    (hcanonical : hc'.canonical = hc.canonical) : Follows g T W hc' where
  stores := hS
  current := hcurrent ▸ hF.current
  currentHash := by rw [hhash, hcurrent, hF.currentHash]
  heaviest := hcurrent ▸ hF.heaviest
  index := by
    rw [hcurrent]
    intro cs hcs i x
    rw [hcanonical]
    exact hF.index cs hcs i x

theorem follows_write (hT : HeaderTree g T) (hN : Numbered T) (hF : Follows g T W hc)
    (hh : h ∈ T) (hp : p ∈ W) (hchild : h.ChildOf p) (coin : Bool) :
    ∃ hc' status, hc.writeHeader h coin = some (hc', .ok status) ∧ Follows g T (h :: W) hc' := by
  have hS := hF.stores
  obtain ⟨ps, hps⟩ := hT.isTree.exists_lineage (hS.mem p hp)
  obtain ⟨cs, hcs⟩ := hT.isTree.exists_lineage (hS.mem _ hF.current)
  have hhs : Ancestry g T h (h :: ps) := .child (hS.mem p hp) hchild hps
  have hptd : hc.getTd h.parentHash (h.numberU64 - 1) = some (totalDifficulty ps) := by
    rw [hchild.1, Header.numberU64_sub_one hchild, hS.getTd_eq hT hp hps]
  have hlocal : hc.getTd hc.currentHeaderHash hc.currentHeader.numberU64 =
      some (totalDifficulty cs) := by
    rw [hF.currentHash, hS.getTd_eq hT hF.current hcs]
  have hextern : h.difficulty + totalDifficulty ps = totalDifficulty (h :: ps) := rfl
  have hw : Weighs g T (h :: W) h.hash (totalDifficulty (h :: ps)) :=
    ⟨h, mem_cons_self, rfl, fun hs hhs' => by rw [hhs'.unique hT.isTree hhs]⟩
  have hS1 := hS.storeHeader hT hh hp hchild hw
  have hcurrent1 : hc.currentHeader ∈ h :: W := mem_cons_of_mem _ hF.current
  simp only [writeHeader, hptd, hlocal, bind_eq_bind, bind_some, hextern]
  by_cases hlead : totalDifficulty (h :: ps) > totalDifficulty cs ∨
      totalDifficulty (h :: ps) = totalDifficulty cs ∧ coin
  · have hle : totalDifficulty cs ≤ totalDifficulty (h :: ps) :=
      hlead.elim Nat.le_of_lt fun heq => Nat.le_of_eq heq.1.symm
    obtain ⟨stale, hstale, hindex⟩ := advance_eq hS1 hT hN hcurrent1 hcs (hF.index cs hcs) hh
      (mem_cons_of_mem _ hp) hchild hps
    rw [if_pos hlead, advance, hstale]
    refine ⟨_, _, rfl, ?_⟩
    refine ⟨?_, mem_cons_self, rfl, ?_, ?_⟩
    · refine Stores.cacheHeader ?_ mem_cons_self hw
      exact hS1.of_caches rfl rfl (fun _ _ => Or.inr) fun _ _ => Or.inr
    · intro a ha as hs has hhs'
      rw [hhs'.unique hT.isTree hhs]
      rcases mem_cons.mp ha with rfl | ha
      · rw [has.unique hT.isTree hhs]
      · exact (hF.heaviest a ha as cs has hcs).trans hle
    · intro hs hhs' i x
      rw [hhs'.unique hT.isTree hhs]
      exact hindex i x
  · rw [if_neg hlead]
    refine ⟨_, _, rfl, hS1.cacheHeader mem_cons_self hw, hcurrent1, hF.currentHash, ?_,
      hF.index⟩
    intro a ha as cs' has hcs'
    rcases mem_cons.mp ha with rfl | ha
    · obtain rfl := hcs'.unique hT.isTree hcs
      rw [has.unique hT.isTree hhs]
      exact Nat.not_lt.mp fun hlt => hlead (Or.inl hlt)
    · exact hF.heaviest a ha as cs' has hcs'

theorem follows_run (hT : HeaderTree g T) (hN : Numbered T) (ops : List Op)
    (hF : Follows g T W hc) (hops : ∀ h coin, .writeHeader h coin ∈ ops → h ∈ T)
    (hfirst : ParentsFirst W ops) :
    ∃ hc', hc.run ops = some hc' ∧ Follows g T (written W ops) hc' := by
  induction ops generalizing hc W with
  | nil => exact ⟨hc, rfl, hF⟩
  | cons op ops ih =>
    have hops' : ∀ h coin, .writeHeader h coin ∈ ops → h ∈ T := fun h coin hmem =>
      hops h coin (mem_cons_of_mem _ hmem)
    have hS := hF.stores
    rw [run, foldlM_cons]
    cases op with
    | writeHeader h coin =>
      obtain ⟨⟨p, hp, hchild⟩, hfirst⟩ := hfirst
      obtain ⟨hc', status, heq, hF'⟩ :=
        follows_write hT hN hF (hops h coin List.mem_cons_self) hp hchild coin
      rw [step, heq]
      exact ih hF' hops' hfirst
    | getTd hash number =>
      refine ih (hF.of_caches (hS.of_caches rfl rfl (fun _ _ => Or.inr) fun x td hx => ?_) rfl rfl
        rfl) hops' hfirst
      exact (of_update_eq_some hx).imp_left fun ⟨hk, hx⟩ => hk ▸ hS.of_getTd hx
    | getHeader hash number =>
      refine ih (hF.of_caches (hS.of_caches rfl rfl (fun x h hx => ?_) fun _ _ => Or.inr) rfl rfl
        rfl) hops' hfirst
      exact (of_update_eq_some hx).imp_left fun ⟨hk, hx⟩ => hk ▸ hS.of_getHeader hx
    | evict keepHeader keepTd =>
      refine ih (hF.of_caches (hS.of_caches rfl rfl (fun x h hx => ?_) fun x td hx => ?_) rfl rfl
        rfl) hops' hfirst
      · exact Or.inr (ite_none_right_eq_some.mp hx).2
      · exact Or.inr (ite_none_right_eq_some.mp hx).2

/-- The header chain follows the heaviest branch, in every order of calls that writes parents
first. -/
theorem heaviest_header_chain (hT : HeaderTree g T) (hN : Numbered T) (ops : List Op)
    (hops : ∀ h coin, .writeHeader h coin ∈ ops → h ∈ T) (hfirst : ParentsFirst [g] ops) :
    ∃ hc, (newHeaderChain g).run ops = some hc ∧ (∀ h ∈ written [g] ops, ∀ hs, Ancestry g T h hs →
        hc.getTd h.hash h.numberU64 = some (totalDifficulty hs)) ∧
      hc.currentHeader ∈ written [g] ops ∧
      (∀ h ∈ written [g] ops, ∀ td td', hc.getTd h.hash h.numberU64 = some td →
        hc.getTd hc.currentHeader.hash hc.currentHeader.numberU64 = some td' → td ≤ td') ∧
      ∃ cs, Ancestry g T hc.currentHeader cs ∧
        (∀ i ≤ hc.currentHeader.number, ∃ a ∈ cs, a.number = i ∧
          hc.canonical (UInt64.ofNat i) = some a.hash) ∧
        ∀ i : UInt64, hc.currentHeader.number < i.toNat → hc.canonical i = none := by
  obtain ⟨hc, hrun, hF⟩ := follows_run hT hN ops (follows_newHeaderChain hT) hops hfirst
  have hS := hF.stores
  have hcurT := hS.mem _ hF.current
  obtain ⟨cs, hcs⟩ := hT.isTree.exists_lineage hcurT
  refine ⟨hc, hrun, fun h hh hs hhs => hS.getTd_eq hT hh hhs, hF.current, ?_, cs, hcs, ?_, ?_⟩
  · intro h hh td td' htd htd'
    obtain ⟨hs, hhs⟩ := hT.isTree.exists_lineage (hS.mem h hh)
    rw [hS.getTd_eq hT hh hhs] at htd
    rw [hS.getTd_eq hT hF.current hcs] at htd'
    rw [← some.inj htd, ← some.inj htd']
    exact hF.heaviest h hh hs cs hhs hcs
  · intro i hi
    obtain ⟨a, ha, rfl⟩ := hcs.exists_level hT.isTree hi
    exact ⟨a, ha, rfl, (hF.index cs hcs _ _).mpr ⟨a, ha, rfl, rfl⟩⟩
  · intro i hi
    rw [eq_none_iff_forall_ne_some]
    intro x hx
    obtain ⟨a, ha, rfl, -⟩ := (hF.index cs hcs i x).mp hx
    rw [hN.toNat (hcs.mem hcurT ha)] at hi
    exact absurd (hcs.level_le hT.isTree.level_child ha) (Nat.not_le.mpr hi)

omit [HashFns] in
theorem written_append (W : List Header) (ops ops' : List Op) :
    written W (ops ++ ops') = written (written W ops) ops' := by
  induction ops generalizing W with
  | nil => rfl
  | cons op ops ih =>
    cases op with
    | writeHeader h coin => exact ih (h :: W)
    | getTd | getHeader | evict => exact ih W

theorem parentsFirst_append (W : List Header) (ops ops' : List Op) :
    ParentsFirst W (ops ++ ops') ↔ ParentsFirst W ops ∧ ParentsFirst (written W ops) ops' := by
  induction ops generalizing W with
  | nil => simp [ParentsFirst, written]
  | cons op ops ih =>
    cases op with
    | writeHeader h coin =>
      show _ ∧ ParentsFirst (h :: W) (ops ++ ops') ↔ (_ ∧ ParentsFirst (h :: W) ops) ∧ _
      rw [ih, and_assoc]
      rfl
    | getTd | getHeader | evict => exact ih W

end

/-! ## A single long branch -/

attribute [local instance] HashFns.plain

/-- The headers of a branch without forks. -/
def long : Nat → Header
  | 0 => default
  | i + 1 => { (default : Header) with
      parentHash := (long i).hash, difficulty := 1, number := i + 1 }

theorem number_long (i : Nat) : (long i).number = i := by
  cases i <;> rfl

theorem childOf_long (i : Nat) : (long (i + 1)).ChildOf (long i) :=
  ⟨rfl, by rw [number_long, number_long]⟩

/-- A header holds the hash of its parent, so that its own is longer. -/
theorem length_hash_long (i : Nat) : (long i).hash.length < (long (i + 1)).hash.length := by
  have hle := Rlp.length_le_encodeString (long (i + 1)).parentHash
  have hhead : ∀ a b n, 0 < (Rlp.putHead a b n).length := fun a b n => by
    unfold Rlp.putHead
    split <;> simp
  show _ < (Header.encodeRLP (long (i + 1))).length
  rw [Header.encodeRLP, Rlp.encodeList, length_append]
  refine lt_of_lt_of_le (Nat.lt_add_of_pos_left (hhead _ _ _)) (Nat.add_le_add_left ?_ _)
  rw [flatten_cons, length_append]
  exact hle.trans (Nat.le_add_right _ _)

theorem hash_long_inj {i j : Nat} (h : (long i).hash = (long j).hash) : i = j :=
  (strictMono_nat_of_lt_succ length_hash_long).injective (congrArg length h)

def longTree (n : Nat) : Set Header := {h | ∃ i ≤ n, h = long i}

theorem headerTree_longTree (n : Nat) : HeaderTree (long 0) (longTree n) where
  genesis := ⟨0, Nat.zero_le n, rfl⟩
  number_genesis := rfl
  parent := by
    rintro _ ⟨i, hi, rfl⟩ hne
    cases i with
    | zero => exact absurd rfl hne
    | succ i => exact ⟨long i, ⟨i, by omega, rfl⟩, childOf_long i⟩
  eq_of_hash := by
    rintro _ ⟨i, -, rfl⟩ _ ⟨j, -, rfl⟩ heq
    rw [hash_long_inj heq]

theorem numbered_longTree (hn : n + 1 < 2 ^ 64) : Numbered (longTree n) := by
  rintro _ ⟨i, hi, rfl⟩
  rw [number_long]
  omega

theorem exists_ancestry_long {i : Nat} (hi : i ≤ n) :
    ∃ hs, Ancestry (long 0) (longTree n) (long i) hs ∧ totalDifficulty hs = i := by
  induction i with
  | zero => exact ⟨[long 0], .root, rfl⟩
  | succ i ih =>
    obtain ⟨hs, hhs, htd⟩ := ih (by omega)
    refine ⟨long (i + 1) :: hs, .child ⟨i, by omega, rfl⟩ (childOf_long i) hhs, ?_⟩
    have hcons : totalDifficulty (long (i + 1) :: hs) = 1 + totalDifficulty hs := rfl
    omega

def longWrites (n : Nat) : List Op := (range n).map fun i => .writeHeader (long (i + 1)) false

theorem longWrites_succ (n : Nat) :
    longWrites (n + 1) = longWrites n ++ [.writeHeader (long (n + 1)) false] := by
  simp [longWrites, range_succ]

theorem mem_longWrites {h : Header} {coin : Bool} (hmem : .writeHeader h coin ∈ longWrites n) :
    h ∈ longTree n := by
  obtain ⟨i, hi, heq⟩ := mem_map.mp hmem
  cases heq
  exact ⟨i + 1, mem_range.mp hi, rfl⟩

theorem mem_written_longWrites {h : Header} :
    h ∈ written [long 0] (longWrites n) ↔ h ∈ longTree n := by
  induction n with
  | zero => simp [longWrites, written, longTree]
  | succ n ih =>
    rw [longWrites_succ, written_append]
    show h ∈ long (n + 1) :: written [long 0] (longWrites n) ↔ _
    rw [mem_cons, ih]
    constructor
    · rintro (rfl | ⟨i, hi, rfl⟩)
      · exact ⟨n + 1, le_rfl, rfl⟩
      · exact ⟨i, by omega, rfl⟩
    · rintro ⟨i, hi, rfl⟩
      rcases Nat.lt_or_eq_of_le hi with hi | rfl
      · exact Or.inr ⟨i, by omega, rfl⟩
      · exact Or.inl rfl

theorem parentsFirst_longWrites (n : Nat) : ParentsFirst [long 0] (longWrites n) := by
  induction n with
  | zero => trivial
  | succ n ih =>
    rw [longWrites_succ, parentsFirst_append]
    refine ⟨ih, ⟨long n, mem_written_longWrites.mpr ⟨n, le_rfl, rfl⟩, childOf_long n⟩, trivial⟩

theorem run_longWrites (hn : n + 1 < 2 ^ 64) :
    ∃ hc, (newHeaderChain (long 0)).run (longWrites n) = some hc ∧
      Follows (long 0) (longTree n) (written [long 0] (longWrites n)) hc ∧
      hc.currentHeader = long n := by
  have hT := headerTree_longTree n
  obtain ⟨hc, hrun, hF⟩ := follows_run hT (numbered_longTree hn) (longWrites n)
    (follows_newHeaderChain hT) (fun _ _ => mem_longWrites) (parentsFirst_longWrites n)
  refine ⟨hc, hrun, hF, ?_⟩
  -- the last header is the heaviest
  have hlast : long n ∈ written [long 0] (longWrites n) :=
    mem_written_longWrites.mpr ⟨n, le_rfl, rfl⟩
  obtain ⟨hs, hhs, htd⟩ := exists_ancestry_long (le_refl n)
  obtain ⟨j, hj, heq⟩ := mem_written_longWrites.mp hF.current
  obtain ⟨js, hjs, htd'⟩ := exists_ancestry_long hj
  have hle := hF.heaviest _ hlast hs js hhs (heq ▸ hjs)
  rw [heq, show j = n by omega]

/-- The number above the last number of all is 0, where the deletion starts. -/
theorem writeHeader_last (hn : n + 2 = 2 ^ 64) {hc : HeaderChain}
    (hF : Follows (long 0) (longTree n) (written [long 0] (longWrites n)) hc)
    (hcurrent : hc.currentHeader = long n) :
    ∃ hc', hc.step (.writeHeader (long (n + 1)) false) = some hc' ∧
      hc'.currentHeader = long (n + 1) ∧ hc'.canonical 0 = none := by
  have hT := headerTree_longTree n
  obtain ⟨hs, hhs, htd⟩ := exists_ancestry_long (le_refl n)
  have hlast : long n ∈ written [long 0] (longWrites n) :=
    mem_written_longWrites.mpr ⟨n, le_rfl, rfl⟩
  have hparent : (long (n + 1)).parentHash = (long n).hash := rfl
  have hnumber : (long (n + 1)).numberU64 - 1 = (long n).numberU64 :=
    Header.numberU64_sub_one (childOf_long n)
  have hptd : hc.getTd (long (n + 1)).parentHash ((long (n + 1)).numberU64 - 1) = some n := by
    rw [hparent, hnumber, hF.stores.getTd_eq hT hlast hhs, htd]
  have hlocal : hc.getTd hc.currentHeaderHash hc.currentHeader.numberU64 = some n := by
    rw [hF.currentHash, hcurrent, hF.stores.getTd_eq hT hlast hhs, htd]
  have hindex := hF.index hs (hcurrent ▸ hhs)
  have hcan : hc.canonical (long n).numberU64 = some (long n).hash := by
    obtain ⟨rest, rfl⟩ := hhs.eq_cons
    exact (hindex _ _).mpr ⟨long n, mem_cons_self, rfl, rfl⟩
  have hcan0 : (hc.canonical 0).isSome := by
    rw [(hindex 0 (long 0).hash).mpr ⟨long 0, hhs.root_mem, rfl, rfl⟩]
    rfl
  have htoNat : (long (n + 1)).numberU64.toNat = n + 1 := by
    rw [Header.numberU64, number_long, UInt64.toNat_ofNat']
    exact Nat.mod_eq_of_lt (by omega)
  have hwrap : (long (n + 1)).numberU64 + 1 = 0 := by
    rw [← UInt64.toNat_inj, UInt64.toNat_add, htoNat, UInt64.toNat_one, UInt64.toNat_zero]
    omega
  have hne : (0 : UInt64) ≠ (long (n + 1)).numberU64 := by
    rw [Ne, ← UInt64.toNat_inj, htoNat, UInt64.toNat_zero]
    omega
  have hstale : ∀ k, (hc.storeHeader (long (n + 1)) (1 + n)).staleNumbers k
      (long (n + 1)).parentHash ((long (n + 1)).numberU64 - 1) = some [] := by
    intro k
    rw [hparent, hnumber]
    cases k <;> simp [staleNumbers, storeHeader, hcan]
  have hdelete : deletes hc.canonical (long (n + 1)).numberU64 0 = true := by
    rw [deletes, hwrap]
    simp [assigned, hcan0]
  have hlead : 1 + n > n ∨ 1 + n = n ∧ false = true := Or.inl (by omega)
  have hdifficulty : (long (n + 1)).difficulty = 1 := rfl
  simp only [step, writeHeader, hptd, hlocal, bind_eq_bind, bind_some, hdifficulty,
    if_pos hlead, advance, hstale, map_some]
  refine ⟨_, rfl, rfl, ?_⟩
  refine (update_of_ne hne _ _).trans ?_
  exact if_pos hdelete

/-- With a header of the last number of all, the canonical hash of the genesis is lost. -/
theorem canonical_lost_at_last_number : ∃ n, n + 1 = 2 ^ 64 ∧ HeaderTree (long 0) (longTree n) ∧
      (∀ h coin, .writeHeader h coin ∈ longWrites n → h ∈ longTree n) ∧
      ParentsFirst [long 0] (longWrites n) ∧
      ∃ hc, (newHeaderChain (long 0)).run (longWrites n) = some hc ∧
        hc.currentHeader.number = n ∧ hc.canonical 0 = none := by
  obtain ⟨n, hn⟩ : ∃ n, n + 2 = 2 ^ 64 := ⟨2 ^ 64 - 2, by norm_num⟩
  obtain ⟨hc, hrun, hF, hcurrent⟩ := run_longWrites (show n + 1 < 2 ^ 64 by omega)
  obtain ⟨hc', hstep, hcurrent', hlost⟩ := writeHeader_last hn hF hcurrent
  refine ⟨n + 1, hn, headerTree_longTree _, fun _ _ => mem_longWrites, parentsFirst_longWrites _,
    hc', ?_, by rw [hcurrent', number_long], hlost⟩
  rw [longWrites_succ, run, foldlM_append]
  rw [run] at hrun
  rw [hrun]
  simp [hstep]

/-! ## A fork -/

/-- A header beside the first of a branch, heavier than two of it. -/
def side : Header :=
  { (default : Header) with parentHash := (long 0).hash, difficulty := 3, number := 1 }

def forkHeaders : List Header := [long 0, long 1, long 2, side]

def forkWrites : List Op := [.writeHeader (long 1) false, .writeHeader (long 2) false,
  .writeHeader side false]

theorem headerTree_fork : HeaderTree (long 0) {h | h ∈ forkHeaders} where
  genesis := mem_cons_self
  number_genesis := rfl
  parent := by
    have h : ∀ h ∈ forkHeaders, h ≠ long 0 →
        ∃ p ∈ forkHeaders, h.parentHash = p.hash ∧ h.number = p.number + 1 := by decide
    exact h
  eq_of_hash := by
    have h : ∀ h ∈ forkHeaders, ∀ h' ∈ forkHeaders, h.hash = h'.hash → h = h' := by decide
    exact h

/-- The heavier header takes the place of two others. -/
theorem heaviest_header_chain_fork : ∃ hc, (newHeaderChain (long 0)).run forkWrites = some hc ∧
    hc.currentHeader = side ∧ ∀ i : UInt64, 1 < i.toNat → hc.canonical i = none := by
  have hN : ∀ h ∈ forkHeaders, h.number + 1 < 2 ^ 64 := by decide
  have hops : ∀ h coin, .writeHeader h coin ∈ forkWrites → h ∈ forkHeaders := by
    intro h coin hmem
    simp only [forkWrites, mem_cons, Op.writeHeader.injEq, not_mem_nil, or_false] at hmem
    rcases hmem with ⟨rfl, -⟩ | ⟨rfl, -⟩ | ⟨rfl, -⟩ <;> simp [forkHeaders]
  have hfirst : ParentsFirst [long 0] forkWrites :=
    ⟨⟨long 0, by simp, childOf_long 0⟩, ⟨long 1, by simp, childOf_long 1⟩,
      ⟨long 0, by simp, rfl, rfl⟩, trivial⟩
  obtain ⟨hc, hrun, -, -, -, cs, -, -, habove⟩ := heaviest_header_chain headerTree_fork hN
    forkWrites hops hfirst
  have hhead : ((newHeaderChain (long 0)).run forkWrites).map (·.currentHeader) = some side := by
    decide
  rw [hrun] at hhead
  have hcur : hc.currentHeader = side := some.inj hhead
  exact ⟨hc, hrun, hcur, fun i hi => habove i (by rw [hcur]; exact hi)⟩

end HeaderChain

end GethComments
