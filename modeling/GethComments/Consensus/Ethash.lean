import GethComments.Consensus.CliqueSnapshot
import GethComments.Core.StateProcessor

/-!
# The ethash engine

`consensus/ethash/consensus.go`: the difficulty of a header, the rules a header and the uncles of
a block are verified by, and the rewards. The check that a header's number follows its parent's
is commented out in the source, and so it is not here. `hashimoto` is a parameter.

* `calcDifficulty_falls`: how the difficulty changes with time;
* `gather_eq`: what the walk over the ancestors collects;
* `number_of_walk`: the numbers along the walk, where numbers are consecutive;
* `checkUncle_eq_ok`, `checkUncles_eq_ok`: what an accepted uncle has passed;
* `accumulateRewards_eq`: what is paid to whom.
-/

variable {hash : Hash} {number : UInt64}

namespace GethComments

/-- The fields of `params.ChainConfig` that the engine reads. -/
structure ChainConfig where
  homesteadBlock : Option Nat
  daoForkBlock : Option Nat
  daoForkSupport : Bool
  eip150Block : Option Nat
  eip150Hash : Hash
  byzantiumBlock : Option Nat
  constantinopleBlock : Option Nat
  muirGlacierBlock : Option Nat

/-- `isForked`. -/
def isForked (s : Option Nat) (head : Nat) : Bool :=
  match s with
  | none => false
  | some s => s ≤ head

section

variable [HashFns]

/-- What the engine reads of `consensus.ChainReader`. The database keeps a block and a header
under their number and their hash, and the caches under their hash alone. -/
structure BlockReader where
  config : ChainConfig
  headerCache : Hash → Option Header
  readHeader : Hash → UInt64 → Option Header
  blockCache : Hash → Option Block
  readBlock : Hash → UInt64 → Option Block
  header_number : ∀ hash number h, readHeader hash number = some h → h.numberU64 = number
  block_hash : ∀ hash number b, (blockCache hash).or (readBlock hash number) = some b →
    b.hash = hash

def BlockReader.getHeader (chain : BlockReader) (hash : Hash) (number : UInt64) : Option Header :=
  (chain.headerCache hash).or (chain.readHeader hash number)

def BlockReader.getBlock (chain : BlockReader) (hash : Hash) (number : UInt64) : Option Block :=
  (chain.blockCache hash).or (chain.readBlock hash number)

end

inductive EthashError where
  | extraTooLong (size : Nat)
  | futureBlock
  | olderBlockTime
  | wrongDifficulty (got : Nat) (want : Int)
  | invalidDifficulty
  | invalidMixDigest
  | invalidPoW
  | badProDAOExtra
  | badNoDAOExtra
  | forkHash (got want : Hash)
  | unknownAncestor
  | tooManyUncles
  | duplicateUncle
  | uncleIsAncestor
  | danglingUncle
  deriving DecidableEq

namespace Ethash

/-! ## Difficulty -/

def minimumDifficulty : Int := 131072

def difficultyBoundDivisor : Int := 2048

def expDiffPeriod : Int := 100000

/-- The exponential factor, commonly referred to as the bomb. -/
def bomb (periodCount : Int) : Int := if periodCount > 1 then 2 ^ (periodCount - 2).toNat else 0

/-- The parent's difficulty, moved by `x` steps of which at most 99 go down. -/
def adjusted (x : Int) (parent : Header) : Int :=
  max (parent.difficulty + parent.difficulty / difficultyBoundDivisor * max x (-99))
    minimumDifficulty

theorem bomb_nonneg (periodCount : Int) : 0 ≤ bomb periodCount := by
  unfold bomb
  split
  · positivity
  · rfl

/-- The difficulties a rule gives at a late and an early time after the parent's. -/
structure Falling (parent : Header) (late early : Int) : Prop where
  minimum_le : minimumDifficulty ≤ late
  le : late ≤ early
  apart : early - late ≤ 101 * (parent.difficulty / difficultyBoundDivisor)

theorem part_nonneg (parent : Header) : 0 ≤ (parent.difficulty : Int) / difficultyBoundDivisor :=
  Int.ediv_nonneg (Int.natCast_nonneg _) (by decide)

/-- Steps between -99 and 2 move the difficulty by at most 101 parts of it. -/
theorem Falling.of_adjusted {x y : Int} (hyx : y ≤ x) (hx : x ≤ 2) (parent : Header)
    (periodCount : Int) : Falling parent (adjusted y parent + bomb periodCount)
      (adjusted x parent + bomb periodCount) := by
  have hb := bomb_nonneg periodCount
  have h1 := Int.mul_le_mul_of_nonneg_left
    (show max y (-99) ≤ max x (-99) by omega) (part_nonneg parent)
  have h2 := Int.mul_le_mul_of_nonneg_left
    (show max x (-99) - max y (-99) ≤ 101 by omega) (part_nonneg parent)
  rw [Int.mul_sub] at h2
  simp only [adjusted]
  constructor <;> omega

section Difficulty

variable [HashFns]

def emptyUncleHash : Hash := HashFns.keccak256 (Rlp.encodeList [])

def makeDifficultyCalculator (bombDelay : Int) (time : UInt64) (parent : Header) : Int :=
  let steps := ((time.toNat : Int) - parent.time.toNat) / 9
  let x := (if parent.uncleHash = emptyUncleHash then 1 else 2) - steps
  let fakeBlockNumber : Int :=
    if (parent.number : Int) ≥ bombDelay - 1 then parent.number - (bombDelay - 1) else 0
  adjusted x parent + bomb (fakeBlockNumber / expDiffPeriod)

def calcDifficultyHomestead (time : UInt64) (parent : Header) : Int :=
  adjusted (1 - ((time.toNat : Int) - parent.time.toNat) / 10) parent +
    bomb (((parent.number : Int) + 1) / expDiffPeriod)

def calcDifficultyFrontier (time : UInt64) (parent : Header) : Int :=
  let adjust := (parent.difficulty : Int) / difficultyBoundDivisor
  let diff :=
    max (if (time.toNat : Int) - parent.time.toNat < 13 then parent.difficulty + adjust
      else parent.difficulty - adjust) minimumDifficulty
  let periodCount := ((parent.number : Int) + 1) / expDiffPeriod
  if periodCount > 1 then max (diff + bomb periodCount) minimumDifficulty else diff

def calcDifficulty (config : ChainConfig) (time : UInt64) (parent : Header) : Int :=
  let next := parent.number + 1
  if isForked config.muirGlacierBlock next then makeDifficultyCalculator 9000000 time parent
  else if isForked config.constantinopleBlock next then
    makeDifficultyCalculator 5000000 time parent
  else if isForked config.byzantiumBlock next then makeDifficultyCalculator 3000000 time parent
  else if isForked config.homesteadBlock next then calcDifficultyHomestead time parent
  else calcDifficultyFrontier time parent

omit [HashFns] in
theorem Falling.frontier {t1 t2 : UInt64} (hle : t1 ≤ t2) (parent : Header) :
    Falling parent (calcDifficultyFrontier t2 parent) (calcDifficultyFrontier t1 parent) := by
  have ht := UInt64.le_iff_toNat_le.mp hle
  have hd := part_nonneg parent
  have hb := bomb_nonneg (((parent.number : Int) + 1) / expDiffPeriod)
  simp only [calcDifficultyFrontier]
  constructor <;> split_ifs <;> omega

/-- Under every fork's rule the difficulty falls with time, by at most 101 parts of the
parent's, and never below the minimum. -/
theorem calcDifficulty_falls (config : ChainConfig) (parent : Header) (t1 t2 : UInt64)
    (htime : parent.time < t1) (hle : t1 ≤ t2) :
    let early := calcDifficulty config t1 parent
    let late := calcDifficulty config t2 parent
    minimumDifficulty ≤ early ∧ minimumDifficulty ≤ late ∧ late ≤ early ∧
      early - late ≤ 101 * (parent.difficulty / difficultyBoundDivisor) := by
  have h1 := UInt64.lt_iff_toNat_lt.mp htime
  have h2 := UInt64.le_iff_toNat_le.mp hle
  have hcalc : ∀ bombDelay, Falling parent (makeDifficultyCalculator bombDelay t2 parent)
      (makeDifficultyCalculator bombDelay t1 parent) := fun bombDelay =>
    Falling.of_adjusted (by omega) (by split <;> omega) _ _
  have h : Falling parent (calcDifficulty config t2 parent) (calcDifficulty config t1 parent) := by
    simp only [calcDifficulty]
    split_ifs
    · exact hcalc _
    · exact hcalc _
    · exact hcalc _
    · exact Falling.of_adjusted (by omega) (by omega) _ _
    · exact Falling.frontier hle _
  exact ⟨h.minimum_le.trans h.le, h.minimum_le, h.le, h.apart⟩

omit [HashFns] in
theorem calcDifficulty_falls_byzantium :
    let config : ChainConfig := ⟨some 0, none, false, none, [], some 0, none, none⟩
    let parent : Header := { (default : Header) with difficulty := 4000000 }
    let _ := HashFns.plain
    calcDifficulty config 1000 parent ≤ calcDifficulty config 1 parent :=
  let _ := HashFns.plain
  (calcDifficulty_falls ⟨some 0, none, false, none, [], some 0, none, none⟩
    { (default : Header) with difficulty := 4000000 } 1 1000 (by decide) (by decide)).2.2.1

/-! ## Seals -/

/-- `SealHash`: the hash of a header without mix digest and nonce. -/
def sealHash (h : Header) : Hash :=
  HashFns.keccak256 (Rlp.encodeList [Rlp.encodeString h.parentHash, Rlp.encodeString h.uncleHash,
    Rlp.encodeString h.coinbase, Rlp.encodeString h.root, Rlp.encodeString h.txHash,
    Rlp.encodeString h.receiptHash, Rlp.encodeString h.bloom, Rlp.encodeUint h.difficulty,
    Rlp.encodeUint h.number, Rlp.encodeUint h.gasLimit.toNat, Rlp.encodeUint h.gasUsed.toNat,
    Rlp.encodeUint h.time.toNat, Rlp.encodeString h.extra])

end Difficulty

inductive PowMode where
  | normal
  | shared
  | test
  | fake
  | fullFake
  deriving DecidableEq

/-- An engine without the shared one. -/
structure Engine where
  mode : PowMode
  fakeFail : UInt64
  /-- `hashimotoLight` with the cache and the size of the dataset of a block number, which is
  small in the test mode: digest and result for a seal hash and a nonce. -/
  hashimotoLight : Bool → UInt64 → Hash → UInt64 → Bytes × Bytes

end Ethash

/-- An engine, which may hand seals over to a shared one. -/
structure Ethash extends Ethash.Engine where
  shared : Option Ethash.Engine

namespace Ethash

section Verify

variable [HashFns]

/-- The work of a header, outside the fake modes. -/
def Engine.checkWork (e : Engine) (header : Header) : Except EthashError Unit :=
  if header.difficulty ≤ 0 then .error .invalidDifficulty
  else
    let (digest, result) := e.hashimotoLight (e.mode = .test) header.numberU64 (sealHash header)
      (UInt64.ofNat (setBytes header.nonce))
    if header.mixDigest ≠ digest then .error .invalidMixDigest
    else if setBytes result > 2 ^ 256 / header.difficulty then .error .invalidPoW
    else .ok ()

/-- `verifySeal` in the fake modes. -/
def Engine.fakeSeal (e : Engine) (header : Header) : Except EthashError Unit :=
  if e.fakeFail = header.numberU64 then .error .invalidPoW else .ok ()

def Engine.isFake (e : Engine) : Bool := e.mode = .fake || e.mode = .fullFake

def Engine.verifySeal (e : Engine) (header : Header) : Except EthashError Unit :=
  if e.isFake then e.fakeSeal header else e.checkWork header

/-- `VerifySeal`, which never uses the full dataset. -/
def verifySeal (e : Ethash) (header : Header) : Except EthashError Unit :=
  if e.isFake then e.fakeSeal header
  else
    match e.shared with
    | some shared => shared.verifySeal header
    | none => e.checkWork header

/-! ## Headers -/

def maximumExtraDataSize : Nat := 32

/-- `"dao-hard-fork"`. -/
def daoForkBlockExtra : Bytes :=
  [0x64, 0x61, 0x6f, 0x2d, 0x68, 0x61, 0x72, 0x64, 0x2d, 0x66, 0x6f, 0x72, 0x6b]

/-- `misc.VerifyDAOHeaderExtraData`. -/
def verifyDAOHeaderExtraData (config : ChainConfig) (header : Header) : Except EthashError Unit :=
  match config.daoForkBlock with
  | none => .ok ()
  | some fork =>
    if header.number < fork ∨ header.number ≥ fork + 10 then .ok ()
    else if config.daoForkSupport then
      if header.extra ≠ daoForkBlockExtra then .error .badProDAOExtra else .ok ()
    else if header.extra = daoForkBlockExtra then .error .badNoDAOExtra
    else .ok ()

/-- `misc.VerifyForkHashes`. -/
def verifyForkHashes (config : ChainConfig) (header : Header) (uncle : Bool) :
    Except EthashError Unit :=
  if uncle then .ok ()
  else if config.eip150Block = some header.number ∧ config.eip150Hash ≠ List.replicate 32 0 ∧
      config.eip150Hash ≠ header.hash then .error (.forkHash header.hash config.eip150Hash)
  else .ok ()

/-- `verifyHeader`, at the time `now` in seconds. -/
def verifyHeader (e : Ethash) (chain : BlockReader) (now : UInt64) (header parent : Header)
    (uncle doSeal : Bool) : Except EthashError Unit := do
  if header.extra.length > maximumExtraDataSize then throw (.extraTooLong header.extra.length)
  if ¬ uncle ∧ header.time > now + 15 then throw .futureBlock
  if header.time ≤ parent.time then throw .olderBlockTime
  let expected := calcDifficulty chain.config header.time parent
  if expected ≠ header.difficulty then throw (.wrongDifficulty header.difficulty expected)
  if doSeal then e.verifySeal header
  verifyDAOHeaderExtraData chain.config header
  verifyForkHashes chain.config header uncle

/-- `VerifyHeader`. -/
def verifyStored (e : Ethash) (chain : BlockReader) (now : UInt64) (header : Header)
    (doSeal : Bool) : Except EthashError Unit :=
  if e.mode = .fullFake then .ok ()
  else if (chain.getHeader header.hash header.numberU64).isSome then .ok ()
  else
    match chain.getHeader header.parentHash (header.numberU64 - 1) with
    | none => .error .unknownAncestor
    | some parent => e.verifyHeader chain now header parent false doSeal

/-! ## Uncles -/

/-- What `VerifyUncles` collects: hashes of uncles, and the headers of ancestors by hash. -/
structure Gathered where
  uncles : List Hash
  ancestors : List (Hash × Header)

def gather (chain : BlockReader) : Nat → Hash → UInt64 → Gathered → Gathered
  | 0, _, _, g => g
  | i + 1, parent, number, g =>
    match chain.getBlock parent number with
    | none => g
    | some ancestor =>
      gather chain i ancestor.parentHash (number - 1)
        ⟨g.uncles ++ ancestor.uncles.map Header.hash,
          (ancestor.hash, ancestor.header) :: g.ancestors⟩

def maxUncles : Nat := 2

/-- The ancestors of a block with their uncles, and the block itself. -/
def family (chain : BlockReader) (block : Block) : Gathered :=
  let g := gather chain 7 block.parentHash (block.numberU64 - 1) ⟨[], []⟩
  ⟨g.uncles ++ [block.hash], (block.hash, block.header) :: g.ancestors⟩

def checkUncle (e : Ethash) (chain : BlockReader) (now : UInt64) (block : Block)
    (ancestors : List (Hash × Header)) (uncles : List Hash) (uncle : Header) :
    Except EthashError Unit :=
  if uncle.hash ∈ uncles then .error .duplicateUncle
  else if (ancestors.lookup uncle.hash).isSome then .error .uncleIsAncestor
  else
    match ancestors.lookup uncle.parentHash with
    | none => .error .danglingUncle
    | some parent =>
      if uncle.parentHash = block.parentHash then .error .danglingUncle
      else e.verifyHeader chain now uncle parent true true

def checkUncles (e : Ethash) (chain : BlockReader) (now : UInt64) (block : Block)
    (ancestors : List (Hash × Header)) : List Hash → List Header → Except EthashError Unit
  | _, [] => .ok ()
  | uncles, uncle :: rest =>
    match e.checkUncle chain now block ancestors uncles uncle with
    | .error err => .error err
    | .ok () => checkUncles e chain now block ancestors (uncles ++ [uncle.hash]) rest

def verifyUncles (e : Ethash) (chain : BlockReader) (now : UInt64) (block : Block) :
    Except EthashError Unit :=
  if e.mode = .fullFake then .ok ()
  else if block.uncles.length > maxUncles then .error .tooManyUncles
  else if block.uncles.length = 0 then .ok ()
  else
    let g := family chain block
    e.checkUncles chain now block g.ancestors g.uncles block.uncles

end Verify

/-! ## Rewards -/

def frontierBlockReward : Int := 5 * 10 ^ 18

def byzantiumBlockReward : Int := 3 * 10 ^ 18

def constantinopleBlockReward : Int := 2 * 10 ^ 18

def blockReward (config : ChainConfig) (number : Nat) : Int :=
  if isForked config.constantinopleBlock number then constantinopleBlockReward
  else if isForked config.byzantiumBlock number then byzantiumBlockReward
  else frontierBlockReward

def uncleReward (blockReward : Int) (number uncleNumber : Nat) : Int :=
  ((uncleNumber : Int) + 8 - number) * blockReward / 8

def accumulateRewards (config : ChainConfig) (st : StateDB) (header : Header)
    (uncles : List Header) : StateDB :=
  let blockReward := blockReward config header.number
  let (st, reward) := uncles.foldl (fun (st, reward) uncle =>
    (st.addBalance uncle.coinbase (uncleReward blockReward header.number uncle.number),
      reward + blockReward / 32)) (st, blockReward)
  st.addBalance header.coinbase reward

theorem accumulateRewards_eq (config : ChainConfig) (st : StateDB) (header : Header)
    (uncles : List Header) :
    accumulateRewards config st header uncles =
      (uncles.foldl (fun st uncle => st.addBalance uncle.coinbase
        (uncleReward (blockReward config header.number) header.number uncle.number)) st).addBalance
        header.coinbase (blockReward config header.number +
          uncles.length * (blockReward config header.number / 32)) := by
  have hloop : ∀ (R reward : Int) (uncles : List Header) (st : StateDB),
      uncles.foldl (fun (st, reward) uncle =>
        (StateDB.addBalance st uncle.coinbase (uncleReward R header.number uncle.number),
          reward + R / 32)) (st, reward) =
      (uncles.foldl (fun st uncle => StateDB.addBalance st uncle.coinbase
        (uncleReward R header.number uncle.number)) st, reward + uncles.length * (R / 32)) := by
    intro R reward uncles
    induction uncles generalizing reward with
    | nil => simp
    | cons uncle uncles ih =>
      intro st
      rw [List.foldl_cons, ih, List.foldl_cons, List.length_cons]
      congr 1
      push_cast
      ring
  rw [accumulateRewards, hloop]

theorem blockReward_cases (config : ChainConfig) (number : Nat) :
    blockReward config number = constantinopleBlockReward ∨
      blockReward config number = byzantiumBlockReward ∨
      blockReward config number = frontierBlockReward := by
  unfold blockReward
  split
  · exact Or.inl rfl
  · split
    · exact Or.inr (Or.inl rfl)
    · exact Or.inr (Or.inr rfl)

theorem uncleReward_bounds (config : ChainConfig) {number uncleNumber : Nat}
    (hlow : uncleNumber + 1 ≤ number) (hhigh : number ≤ uncleNumber + 6) :
    0 < uncleReward (blockReward config number) number uncleNumber ∧
      uncleReward (blockReward config number) number uncleNumber < blockReward config number := by
  obtain ⟨d, rfl⟩ : ∃ d, number = uncleNumber + d := ⟨number - uncleNumber, by omega⟩
  have hd : (uncleNumber : Int) + 8 - ((uncleNumber + d : Nat) : Int) = 8 - d := by
    push_cast
    ring
  unfold uncleReward
  rw [hd]
  obtain h | h | h := blockReward_cases config (uncleNumber + d) <;> rw [h]
  · unfold constantinopleBlockReward
    omega
  · unfold byzantiumBlockReward
    omega
  · unfold frontierBlockReward
    omega

/-! ## The walk -/

section Walk

variable [HashFns] {chain : BlockReader} {block a : Block} {e : Ethash} {now : UInt64}

/-- The ancestors from `parent` on, the closest first. -/
def walk (chain : BlockReader) : Nat → Hash → UInt64 → List Block
  | 0, _, _ => []
  | n + 1, parent, number =>
    match chain.getBlock parent number with
    | none => []
    | some ancestor => ancestor :: walk chain n ancestor.parentHash (number - 1)

/-- Up to `n` ancestors of a block. -/
def ancestors (chain : BlockReader) (block : Block) (n : Nat) : List Block :=
  walk chain n block.parentHash (block.numberU64 - 1)

theorem length_walk_le (n : Nat) (parent : Hash) (number : UInt64) :
    (walk chain n parent number).length ≤ n := by
  induction n generalizing parent number with
  | zero => simp [walk]
  | succ n ih =>
    unfold walk
    cases chain.getBlock parent number with
    | none => simp
    | some b => simpa using ih b.parentHash (number - 1)

theorem gather_eq (n : Nat) (parent : Hash) (number : UInt64) (g : Gathered) :
    gather chain n parent number g =
      ⟨g.uncles ++ (walk chain n parent number).flatMap fun a => a.uncles.map Header.hash,
        ((walk chain n parent number).map fun a => (a.hash, a.header)).reverse ++ g.ancestors⟩ := by
  induction n generalizing parent number g with
  | zero => simp [gather, walk]
  | succ n ih =>
    unfold gather walk
    cases chain.getBlock parent number with
    | none => simp
    | some ancestor => simp [ih]

variable {l : List (Hash × Header)} {n i : Nat} {seen : List Hash}

/-- The rule that the numbers of headers are consecutive, for a block, its uncles and the blocks of
the chain; and no uncle is a child of the block. -/
structure Numbered (chain : BlockReader) (block : Block) : Prop where
  self : ∀ a, chain.getBlock block.parentHash (block.numberU64 - 1) = some a →
    block.header.number = a.header.number + 1
  stored : ∀ hash number b number' a, chain.getBlock hash number = some b →
    chain.getBlock b.parentHash number' = some a → b.header.number = a.header.number + 1
  uncles : ∀ u ∈ block.uncles, ∀ number a, chain.getBlock u.parentHash number = some a →
    u.number = a.header.number + 1
  apart : ∀ u ∈ block.uncles, u.parentHash ≠ block.hash

theorem getElem?_walk {m : Nat} (hn : i < n) (hm : i < m) (parent : Hash) (number : UInt64) :
    (walk chain n parent number)[i]? = (walk chain m parent number)[i]? := by
  induction i generalizing n m parent number with
  | zero =>
    obtain ⟨n, rfl⟩ := Nat.exists_eq_succ_of_ne_zero hn.ne'
    obtain ⟨m, rfl⟩ := Nat.exists_eq_succ_of_ne_zero hm.ne'
    unfold walk
    cases chain.getBlock parent number <;> rfl
  | succ i ih =>
    obtain ⟨n, rfl⟩ : ∃ k, n = k + 1 := ⟨n - 1, by omega⟩
    obtain ⟨m, rfl⟩ : ∃ k, m = k + 1 := ⟨m - 1, by omega⟩
    unfold walk
    cases chain.getBlock parent number with
    | none => rfl
    | some ancestor => exact ih (by omega) (by omega) _ _

theorem number_of_walk (hnum : Numbered chain block) {top : Nat} {parent : Hash}
    (htop : ∀ b, chain.getBlock parent number = some b → top = b.header.number + 1)
    (ha : (walk chain n parent number)[i]? = some a) :
    (∃ number', chain.getBlock a.hash number' = some a) ∧ top = a.header.number + i + 1 ∧
      (i = 0 → a.hash = parent) := by
  induction n generalizing i parent number top with
  | zero => simp [walk] at ha
  | succ n ih =>
    unfold walk at ha
    cases hget : chain.getBlock parent number with
    | none => simp [hget] at ha
    | some b =>
      have hhash := chain.block_hash _ _ _ hget
      have hb := htop b hget
      rw [hget] at ha
      cases i with
      | zero =>
        obtain rfl : b = a := by simpa using ha
        exact ⟨⟨number, hhash ▸ hget⟩, by omega, fun _ => hhash⟩
      | succ i =>
        obtain ⟨hkey, hdist, -⟩ := ih (fun c => hnum.stored _ _ _ _ c hget) (by simpa using ha)
        exact ⟨hkey, by omega, fun h => absurd h (by omega)⟩

theorem number_of_ancestors (hnum : Numbered chain block)
    (ha : (ancestors chain block n)[i]? = some a) :
    (∃ number, chain.getBlock a.hash number = some a) ∧
      block.header.number = a.header.number + i + 1 ∧ (i = 0 → a.hash = block.parentHash) :=
  number_of_walk hnum hnum.self ha

/-! ## Accepted uncles -/

theorem checkUncle_eq_ok {u : Header} (h : e.checkUncle chain now block l seen u = .ok ()) :
    u.hash ∉ seen ∧ l.lookup u.hash = none ∧ u.parentHash ≠ block.parentHash ∧
      ∃ parent, l.lookup u.parentHash = some parent ∧
        e.verifyHeader chain now u parent true true = .ok () := by
  unfold checkUncle at h
  split at h
  · cases h
  case isFalse hseen =>
    split at h
    · cases h
    case isFalse hanc =>
      split at h
      · cases h
      case _ parent hparent =>
        split at h
        · cases h
        case isFalse hne =>
          exact ⟨hseen, Option.not_isSome_iff_eq_none.mp hanc, hne, parent, hparent, h⟩

theorem checkUncles_eq_ok {us : List Header}
    (h : e.checkUncles chain now block l seen us = .ok ()) :
    (us.map Header.hash).Nodup ∧ ∀ u ∈ us, ∃ seen', seen ⊆ seen' ∧
      e.checkUncle chain now block l seen' u = .ok () := by
  induction us generalizing seen with
  | nil => simp
  | cons u us ih =>
    unfold checkUncles at h
    split at h
    · cases h
    case _ hu =>
      obtain ⟨hnodup, hall⟩ := ih h
      refine ⟨List.nodup_cons.mpr ⟨?_, hnodup⟩, fun v hv => ?_⟩
      · intro hmem
        obtain ⟨v, hv, heq⟩ := List.mem_map.mp hmem
        obtain ⟨seen', hsub, hok⟩ := hall v hv
        exact (checkUncle_eq_ok hok).1 (hsub (by simp [heq]))
      · rcases List.mem_cons.mp hv with rfl | hv
        · exact ⟨seen, List.Subset.refl _, hu⟩
        · obtain ⟨seen', hsub, hok⟩ := hall v hv
          exact ⟨seen', fun x hx => hsub (List.mem_append_left _ hx), hok⟩

/-- What the engine guarantees of one uncle. -/
structure FreshUncle (chain : BlockReader) (block : Block) (u : Header) : Prop where
  below : u.number + 1 ≤ block.header.number
  near : block.header.number ≤ u.number + 6
  notBlock : u.hash ≠ block.hash
  notAncestor : ∀ n, ∀ a ∈ ancestors chain block n, u ≠ a.header
  notRecent : ∀ a ∈ ancestors chain block 7, u.hash ≠ a.hash
  notIncluded : ∀ a ∈ ancestors chain block 7, ∀ v ∈ a.uncles, u.hash ≠ v.hash

theorem mem_family_uncles : hash ∈ (family chain block).uncles ↔
      (∃ a ∈ ancestors chain block 7, ∃ v ∈ a.uncles, v.hash = hash) ∨ hash = block.hash := by
  simp [family, gather_eq, ancestors]

theorem mem_family_ancestors {p : Header} : (hash, p) ∈ (family chain block).ancestors ↔
      (hash = block.hash ∧ p = block.header) ∨
        ∃ a ∈ ancestors chain block 7, a.hash = hash ∧ a.header = p := by
  simp [family, gather_eq, ancestors]

theorem lookup_family {p : Header} (hne : hash ≠ block.hash)
    (h : (family chain block).ancestors.lookup hash = some p) :
    ∃ a ∈ ancestors chain block 7, a.hash = hash ∧ a.header = p := by
  obtain ⟨l1, l2, heq, -⟩ := List.lookup_eq_some_iff.mp h
  have hmem : (hash, p) ∈ (family chain block).ancestors := by simp [heq]
  exact (mem_family_ancestors.mp hmem).resolve_left fun h => hne h.1

theorem freshUncle_of_checkUncle (hnum : Numbered chain block) {u : Header} (hu : u ∈ block.uncles)
    (hsub : (family chain block).uncles ⊆ seen)
    (h : e.checkUncle chain now block (family chain block).ancestors seen u = .ok ()) :
    FreshUncle chain block u := by
  obtain ⟨hseen, hanc, hsibling, parent, hparent, -⟩ := checkUncle_eq_ok h
  have hrecent : ∀ a ∈ ancestors chain block 7, u.hash ≠ a.hash := by
    intro a ha
    have hmem := mem_family_ancestors.mpr (Or.inr ⟨a, ha, rfl, rfl⟩)
    simpa using List.lookup_eq_none_iff.mp hanc _ hmem
  -- The parent of the uncle is the ancestor `i`, and not the block's own parent.
  obtain ⟨a, ha, hhash, -⟩ := lookup_family (hnum.apart u hu) hparent
  obtain ⟨i, hi, hget⟩ := List.mem_iff_getElem.mp ha
  have hi7 : i < 7 := Nat.lt_of_lt_of_le hi (length_walk_le _ _ _)
  obtain ⟨⟨number, hstored⟩, hdist, hfirst⟩ :=
    number_of_ancestors hnum (List.getElem?_eq_some_iff.mpr ⟨hi, hget⟩)
  have hunum := hnum.uncles u hu number a (hhash ▸ hstored)
  have hi0 : i ≠ 0 := fun h0 => hsibling (hhash ▸ hfirst h0)
  have hbelow : u.number + 1 ≤ block.header.number := by omega
  have hnear : block.header.number ≤ u.number + 6 := by omega
  refine ⟨hbelow, hnear, ?_, ?_, hrecent, ?_⟩
  · exact fun heq => hseen (hsub (mem_family_uncles.mpr (Or.inr heq)))
  · rintro n b hb rfl
    obtain ⟨j, hj, hbj⟩ := List.mem_iff_getElem.mp hb
    have hsome : (ancestors chain block n)[j]? = some b := List.getElem?_eq_some_iff.mpr ⟨hj, hbj⟩
    have hjnum := (number_of_ancestors hnum hsome).2.1
    have hn : j < n := Nat.lt_of_lt_of_le hj (length_walk_le _ _ _)
    have hmem : (ancestors chain block 7)[j]? = some b := by
      rw [← hsome]
      exact getElem?_walk (by omega) hn _ _
    exact hrecent b (List.mem_of_getElem? hmem) rfl
  · exact fun b hb v hv heq =>
      hseen (hsub (mem_family_uncles.mpr (Or.inl ⟨b, hb, v, hv, heq.symm⟩)))

theorem verifyStored_eq_ok {header : Header} {doSeal : Bool} (hmode : e.mode ≠ .fullFake)
    (hnew : chain.getHeader header.hash header.numberU64 = none)
    (h : e.verifyStored chain now header doSeal = .ok ()) :
    ∃ parent, chain.getHeader header.parentHash (header.numberU64 - 1) = some parent ∧
      e.verifyHeader chain now header parent false doSeal = .ok () ∧
      (chain.headerCache header.parentHash = none → header.numberU64 = parent.numberU64 + 1) := by
  unfold verifyStored at h
  rw [if_neg hmode, hnew, if_neg (by simp)] at h
  split at h
  · cases h
  case _ parent hparent =>
    refine ⟨parent, hparent, h, fun hcache => ?_⟩
    rw [BlockReader.getHeader, hcache, Option.none_or] at hparent
    rw [chain.header_number _ _ _ hparent, UInt64.sub_add_cancel]

theorem verifyUncles_eq_ok (hmode : e.mode ≠ .fullFake) (hnum : Numbered chain block)
    (h : e.verifyUncles chain now block = .ok ()) :
    (block.uncles.map Header.hash).Nodup ∧ ∀ u ∈ block.uncles, FreshUncle chain block u := by
  unfold verifyUncles at h
  rw [if_neg hmode] at h
  split at h
  · cases h
  · split at h
    case isTrue hnone => simp [List.length_eq_zero_iff.mp hnone]
    case isFalse =>
      obtain ⟨hnodup, hall⟩ := checkUncles_eq_ok h
      refine ⟨hnodup, fun u hu => ?_⟩
      obtain ⟨seen, hsub, hok⟩ := hall u hu
      exact freshUncle_of_checkUncle hnum hu hsub hok

end Walk

/-! ## An uncle of any number -/

attribute [local instance] HashFns.plain

def powEngine : Ethash := ⟨⟨.normal, 0, fun _ _ _ _ => ([], [])⟩, none⟩

def genesisBlock : Block := ⟨{ (default : Header) with difficulty := 131072 }, [], []⟩

def childHeader (parent : Header) (number : Nat) (nonce : Bytes) : Header :=
  { (default : Header) with
    parentHash := parent.hash
    difficulty := 131072
    number := number
    time := parent.time + 13
    nonce := nonce }

def firstBlock : Block := ⟨childHeader genesisBlock.header 1 [], [], []⟩

def secondBlock (uncleNumber : Nat) : Block :=
  ⟨childHeader firstBlock.header 2 [], [], [childHeader genesisBlock.header uncleNumber [1]]⟩

/-- A chain of blocks, some of which are cached. -/
def reader (cached blocks : List Block) : BlockReader where
  config := ⟨none, none, false, none, [], none, none, none⟩
  headerCache hash := (cached.find? fun b => b.hash = hash).map Block.header
  readHeader hash number :=
    (blocks.find? fun b => b.hash = hash ∧ b.numberU64 = number).map Block.header
  blockCache hash := cached.find? fun b => b.hash = hash
  readBlock hash number := blocks.find? fun b => b.hash = hash ∧ b.numberU64 = number
  header_number hash number h hget := by
    obtain ⟨b, hb, rfl⟩ := Option.map_eq_some_iff.mp hget
    have hkey := List.find?_some hb
    exact (of_decide_eq_true hkey).2
  block_hash hash number b hget := by
    rcases Option.or_eq_some_iff.mp hget with hb | ⟨-, hb⟩
    · exact of_decide_eq_true (List.find?_some hb :)
    · exact (of_decide_eq_true (List.find?_some hb :)).1

def twoBlocks : BlockReader := reader [genesisBlock] [genesisBlock, firstBlock]

theorem stored_twoBlocks {b : Block} (h : twoBlocks.getBlock hash number = some b) :
    (b = genesisBlock ∨ b = firstBlock) ∧ b.hash = hash := by
  refine ⟨?_, twoBlocks.block_hash _ _ _ h⟩
  rcases Option.or_eq_some_iff.mp h with hb | ⟨-, hb⟩
  · exact Or.inl (by simpa using List.mem_of_find?_eq_some hb)
  · simpa using List.mem_of_find?_eq_some hb

theorem numbered_secondBlock : Numbered twoBlocks (secondBlock 1) where
  self a ha := by
    obtain ⟨rfl | rfl, hhash⟩ := stored_twoBlocks ha
    · exact absurd hhash (by decide)
    · rfl
  stored hash number b number' a hb ha := by
    obtain ⟨rfl | rfl, -⟩ := stored_twoBlocks hb <;>
      obtain ⟨rfl | rfl, hhash⟩ := stored_twoBlocks ha
    · exact absurd hhash (by decide)
    · exact absurd hhash (by decide)
    · rfl
    · exact absurd hhash (by decide)
  uncles u hu number a ha := by
    obtain rfl := List.mem_singleton.mp hu
    obtain ⟨rfl | rfl, hhash⟩ := stored_twoBlocks ha
    · rfl
    · exact absurd hhash (by decide)
  apart u hu := by
    obtain rfl := List.mem_singleton.mp hu
    decide

end Ethash

end GethComments
