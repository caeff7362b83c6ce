import Mathlib.Data.List.GetD
import GethComments.Types.Rlp

/-!
# Fork identifiers

`core/forkid/forkid.go`: the identifier of a chain at a head, and the filter for the identifiers of
other nodes. An identifier has the checksum of the passed forks and the number of the next one.

* `newIDLoop_at`: the place of an identifier in the list of checksums;
* `newFilter_newID_iff`: which identifiers of its own chain a node accepts.
-/

namespace GethComments.ForkId

open List

/-- The fork blocks of `params.ChainConfig`. -/
structure ChainConfig where
  homesteadBlock : Option Int
  daoForkBlock : Option Int
  eip150Block : Option Int
  eip155Block : Option Int
  eip158Block : Option Int
  byzantiumBlock : Option Int
  constantinopleBlock : Option Int
  petersburgBlock : Option Int
  istanbulBlock : Option Int
  muirGlacierBlock : Option Int
  ewasmBlock : Option Int
  deriving Inhabited

inductive FilterError where
  | remoteStale
  | localIncompatibleOrStale
  deriving DecidableEq

structure ID where
  hash : Bytes
  next : UInt64

/-! ## Checksums -/

/-- An entry of `crc32.IEEETable`. -/
def ieeeTable (i : UInt32) : UInt32 :=
  Nat.iterate (fun crc => if crc &&& 1 = 1 then (crc >>> 1) ^^^ 0xedb88320 else crc >>> 1) 8 i

/-- `crc32.Update` with that table. -/
def update (crc : UInt32) (p : Bytes) : UInt32 :=
  ~~~ p.foldl (fun crc v => ieeeTable ((crc ^^^ v.toUInt32) &&& 0xff) ^^^ (crc >>> 8)) (~~~ crc)

def checksumIEEE (data : Bytes) : UInt32 := update 0 data

def checksumUpdate (hash : UInt32) (fork : UInt64) : UInt32 :=
  update hash ((range 8).map fun i => (fork >>> UInt64.ofNat (56 - 8 * i)).toUInt8)

def checksumToBytes (hash : UInt32) : Bytes :=
  (range 4).map fun i => (hash >>> UInt32.ofNat (24 - 8 * i)).toUInt8

/-! ## Forks -/

/-- The inner loop of the sort: a smaller number changes places with the one at the front. -/
def exchange : UInt64 → List UInt64 → UInt64 × List UInt64
  | x, [] => (x, [])
  | x, y :: rest =>
    let (front, rest) := exchange (if x > y then y else x) rest
    (front, (if x > y then x else y) :: rest)

/-- The outer loop, over a list of `n` numbers. -/
def sortForks : Nat → List UInt64 → List UInt64
  | n + 1, x :: rest =>
    let (x, rest) := exchange x rest
    x :: sortForks n rest
  | _, forks => forks

/-- `x` and the numbers behind it, without repetitions. -/
def deduplicate : UInt64 → List UInt64 → List UInt64
  | x, [] => [x]
  | x, y :: rest => if y = x then deduplicate x rest else x :: deduplicate y rest

def gatherForks (config : ChainConfig) : List UInt64 :=
  let rules := [config.homesteadBlock, config.daoForkBlock, config.eip150Block, config.eip155Block,
    config.eip158Block, config.byzantiumBlock, config.constantinopleBlock, config.petersburgBlock,
    config.istanbulBlock, config.muirGlacierBlock, config.ewasmBlock]
  let forks := rules.filterMap fun rule => rule.map fun n => UInt64.ofNat n.natAbs
  match sortForks forks.length forks with
  | [] => []
  | x :: rest =>
    let forks := deduplicate x rest
    if forks.head? = some 0 then forks.tail else forks

/-! ## Identifiers -/

/-- The loop of `newID`. -/
def newIDLoop (head : UInt64) : UInt32 → List UInt64 → ID
  | hash, [] => ⟨checksumToBytes hash, 0⟩
  | hash, fork :: forks =>
    if fork ≤ head then newIDLoop head (checksumUpdate hash fork) forks
    else ⟨checksumToBytes hash, fork⟩

def newID (config : ChainConfig) (genesis : Hash) (head : UInt64) : ID :=
  newIDLoop head (checksumIEEE genesis) (gatherForks config)

/-- The loop that fills `sums`. -/
def sumsFrom : UInt32 → List UInt64 → List Bytes
  | hash, [] => [checksumToBytes hash]
  | hash, fork :: forks => checksumToBytes hash :: sumsFrom (checksumUpdate hash fork) forks

def sums (config : ChainConfig) (genesis : Hash) : List Bytes :=
  sumsFrom (checksumIEEE genesis) (gatherForks config)

/-- The rules of the filter, where `forks[i]` is the first fork that is not passed. The loop of rule
2 finds the first place of the checksum; one that has no place is refused by rule 4. -/
def validate (sums : List Bytes) (forks : List UInt64) (head : UInt64) (id : ID) (i : Nat) :
    Option FilterError :=
  if id.hash ∉ sums then some .localIncompatibleOrStale
  else if sums[i]? = some id.hash then
    if id.next > 0 ∧ head ≥ id.next then some .localIncompatibleOrStale else none
  else if sums.idxOf id.hash < i then
    if forks[sums.idxOf id.hash]? ≠ some id.next then some .remoteStale else none
  else none

/-- `math.MaxUint64`, as a fork that is never passed. -/
def lastFork : UInt64 := 0xffffffffffffffff

/-- `newFilter`, at the head `head`. -/
def newFilter (config : ChainConfig) (genesis : Hash) (head : UInt64) (id : ID) :
    Option FilterError :=
  let forks := gatherForks config ++ [lastFork]
  match forks.findIdx? fun fork => ¬ head > fork with
  | none => none
  | some i => validate (sums config genesis) forks head id i

/-! ## What the filter accepts -/

variable {forks : List UInt64} {checksums : List Bytes} {h : UInt64} {id : ID} {i : Nat}

/-- The first fork that is not passed at a head. -/
def place (forks : List UInt64) (r : UInt64) : Nat := forks.findIdx fun fork => ¬ fork ≤ r

theorem newIDLoop_at (r : UInt64) (hash : UInt32) (forks : List UInt64) :
    (sumsFrom hash forks)[place forks r]? = some (newIDLoop r hash forks).hash ∧
      (newIDLoop r hash forks).next = forks.getD (place forks r) 0 := by
  induction forks generalizing hash with
  | nil => exact ⟨rfl, rfl⟩
  | cons fork forks ih =>
    rw [newIDLoop, place, findIdx_cons]
    by_cases hle : fork ≤ r
    · simpa [hle, sumsFrom, place] using ih (checksumUpdate hash fork)
    · simp [hle, sumsFrom]

theorem exists_first (forks : List UInt64) (h : UInt64) :
    ∃ i, (forks ++ [lastFork]).findIdx? (fun fork => ¬ h > fork) = some i := by
  refine ⟨_, findIdx?_eq_some_of_exists ⟨lastFork, by simp, decide_eq_true ?_⟩⟩
  exact UInt64.not_lt.mpr (UInt64.le_iff_toNat_le.mpr (Nat.le_of_lt_succ h.toNat_lt))

theorem validate_eq_none_iff (hnodup : checksums.Nodup) {r : UInt64}
    (hi : (forks ++ [lastFork]).findIdx? (fun fork => ¬ h > fork) = some i)
    (hhash : checksums[place forks r]? = some id.hash)
    (hnext : id.next = forks.getD (place forks r) 0) :
    validate checksums (forks ++ [lastFork]) h id i = none ↔ ¬ (0 < h ∧ id.next = h) := by
  obtain ⟨hilt, hhere, hbefore⟩ := findIdx?_eq_some_iff_getElem.mp hi
  have hkle : place forks r ≤ forks.length := findIdx_le_length
  have hpassed : ∀ j < place forks r, forks.getD j 0 ≤ r := by
    intro j hj
    rw [getD_eq_getElem _ _ (hj.trans_le hkle)]
    simpa using not_of_lt_findIdx hj
  have hahead : place forks r < forks.length → r < id.next := by
    intro hj
    rw [hnext, getD_eq_getElem _ _ hj]
    simpa [place] using findIdx_getElem (w := hj)
  generalize place forks r = k at *
  obtain ⟨hklt, hkeq⟩ := List.getElem?_eq_some_iff.mp hhash
  have hat : checksums[i]? = some id.hash ↔ k = i := by
    rw [← hhash, eq_comm, List.getElem?_inj hklt hnodup]
  have hidx : checksums.idxOf id.hash = k := by rw [← hkeq, hnodup.idxOf_getElem]
  have hmem : ¬ id.hash ∉ checksums := not_not.mpr (mem_of_getElem? hhash)
  have hilen : i ≤ forks.length := by simpa [Nat.lt_succ_iff] using hilt
  rw [validate, if_neg hmem]
  simp only [hat, hidx]
  rcases Nat.lt_trichotomy k i with hlt | rfl | hgt
  · -- The remote node is behind, and its next fork was passed here.
    have hget : forks[k]? = some id.next := by
      rw [hnext, getD_eq_getElem _ _ (by omega), List.getElem?_eq_getElem]
    have hlow : id.next < h := by
      have := hbefore k hlt
      grind
    rw [if_neg (by omega), if_pos hlt, List.getElem?_append_left (by omega), hget]
    simp [UInt64.ne_of_lt hlow]
  · rw [if_pos rfl]
    rcases Nat.lt_or_eq_of_le hkle with hklen | rfl
    · have hle : h ≤ id.next := by grind
      grind
    · grind
  · -- The remote node is ahead, and has passed the fork that is next here.
    rw [if_neg (by omega), if_neg (by omega)]
    have hle : h ≤ forks.getD i 0 := by grind
    have := hpassed i hgt
    grind

/-- A node accepts the identifiers of its own chain, unless its head is the fork block that the
remote node has as its next one; it accepts none with another checksum. -/
theorem newFilter_newID_iff (config : ChainConfig) (genesis : Hash)
    (hsums : (sums config genesis).Nodup) (h : UInt64) :
    (∀ r, newFilter config genesis h (newID config genesis r) = none ↔
      ¬ (0 < h ∧ (newID config genesis r).next = h)) ∧
    ∀ id : ID, id.hash ∉ sums config genesis → newFilter config genesis h id ≠ none := by
  obtain ⟨i, hi⟩ := exists_first (gatherForks config) h
  simp only [newFilter, hi]
  refine ⟨fun r => ?_, fun id hid => ?_⟩
  · obtain ⟨hhash, hnext⟩ := newIDLoop_at r (checksumIEEE genesis) (gatherForks config)
    exact validate_eq_none_iff hsums hi hhash hnext
  · rw [validate, if_pos hid]
    simp

def oneFork : ChainConfig := { (default : ChainConfig) with homesteadBlock := some 10 }

theorem newFilter_newID_iff_behind :
    newFilter oneFork (List.replicate 32 0) 20 (newID oneFork (List.replicate 32 0) 9) = none :=
  ((newFilter_newID_iff oneFork (replicate 32 0) (by decide +kernel) 20).1 9).mpr
    (by decide +kernel)

/-- At the fork block a node refuses one that is a block behind. -/
theorem newFilter_at_fork : (sums oneFork (List.replicate 32 0)).Nodup ∧
    newFilter oneFork (List.replicate 32 0) 10 (newID oneFork (List.replicate 32 0) 9) =
      some .localIncompatibleOrStale := by
  decide +kernel

end GethComments.ForkId
