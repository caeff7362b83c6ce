import GethComments.Consensus.CliqueSnapshot
import GethComments.Lib.TextObject

/-!
# The clique engine

`consensus/clique/clique.go`: how a snapshot is found in memory, on disk, at a trusted
checkpoint or by walking back, and the rules a header is verified by. Writing to the disk does
not fail. A snapshot on disk is a JSON object; package `encoding/json` is outside, so that an
object is the list of its members.

* `unmarshal_marshal`: a snapshot is read back as it was written;
* `base_eq_ok`, `base_eq_none`, `findBase_cases`: where the search for a snapshot ends and how it
  goes on.
-/

namespace GethComments

/-- What the engine reads of `consensus.ChainReader`. -/
structure HeaderReader where
  eip150Block : Option Nat
  eip150Hash : Hash
  getHeader : Hash → UInt64 → Option Header
  getHeaderByNumber : UInt64 → Option Header

namespace Clique

/-! ## Signatures -/

def addressLength : Nat := 20

def extraVanity : Nat := 32

def extraSeal : Nat := Crypto.signatureLength

section Seal

variable [HashFns]

/-- `SealHash`: the hash of a header without its signature. -/
def sealHash (h : Header) : Hash :=
  ({ h with extra := h.extra.take (h.extra.length - extraSeal) } : Header).hash

/-- What `copy` leaves of a byte string in an address. -/
def fitAddress (b : Bytes) : Address :=
  b.take addressLength ++ List.replicate (addressLength - b.length) 0

def ecrecover {PrivateKey PublicKey : Type} (C : Crypto PrivateKey PublicKey) (h : Header) :
    Except CliqueError Address :=
  if h.extra.length < extraSeal then .error .missingSignature
  else
    match C.ecrecover (sealHash h) (h.extra.drop (h.extra.length - extraSeal)) with
    | .error err => .error (.crypto err)
    | .ok pubkey => .ok (fitAddress ((C.keccak256 pubkey.tail).drop 12))

end Seal

/-! ## Snapshots on disk -/

structure VoteJson where
  signer : List Char
  block : UInt64
  address : List Char
  authorize : Bool

structure SnapshotJson where
  number : UInt64
  hash : List Char
  /-- The names of the members, which are empty objects. -/
  signers : List (List Char)
  recents : List (List Char × List Char)
  /-- Also `null`, which is read as no votes. -/
  votes : List VoteJson
  tally : List (List Char × Tally)

theorem encode_injective : Function.Injective Hexutil.encode := by
  intro a b h
  have hread := Hexutil.unmarshalBytes_encode a
  rw [h, Hexutil.unmarshalBytes_encode] at hread
  exact (Except.ok.inj hread).symm

def addressKey : TextKey Address := ⟨Hexutil.encode, encode_injective⟩

/-- `strconv.FormatUint`. -/
def formatUint (n : UInt64) : List Char := Nat.toDigits 10 n.toNat

/-- `strconv.ParseUint`. -/
def parseUint (text : List Char) : Option UInt64 :=
  if text = [] ∨ ¬ text.all Char.isDigit then none
  else if Nat.ofDigitChars 10 text 0 < 2 ^ 64 then some (UInt64.ofNat (Nat.ofDigitChars 10 text 0))
  else none

theorem parseUint_formatUint (n : UInt64) : parseUint (formatUint n) = some n := by
  have hdigits : (formatUint n).all Char.isDigit = true := by
    rw [List.all_eq_true]
    intro c hc
    exact Nat.isDigit_of_mem_toDigits (by omega) (by omega) hc
  have hread : Nat.ofDigitChars 10 (formatUint n) 0 = n.toNat :=
    Nat.ofDigitChars_toDigits (by omega) (by omega)
  have hempty : formatUint n ≠ [] := Nat.toDigits_ne_nil
  rw [parseUint, if_neg (by simp [hdigits, hempty]), hread, if_pos n.toNat_lt, UInt64.ofNat_toNat]

def numberKey : TextKey UInt64 :=
  ⟨formatUint, fun a b h => by
    have hread := parseUint_formatUint a
    rw [h, parseUint_formatUint] at hread
    exact (Option.some.inj hread).symm⟩

def readAddress (text : List Char) : Option Address :=
  (Hexutil.unmarshalFixed addressLength "Address" text).toOption

def readHash (text : List Char) : Option Hash := (Hexutil.unmarshalFixed 32 "Hash" text).toOption

def Vote.marshal (v : Vote) : VoteJson :=
  ⟨Hexutil.encode v.signer, v.block, Hexutil.encode v.address, v.authorize⟩

def VoteJson.unmarshal (v : VoteJson) : Option Vote := do
  let signer ← readAddress v.signer
  let address ← readAddress v.address
  some ⟨signer, v.block, address, v.authorize⟩

open TextObject

/-- `json.Marshal` of a snapshot. -/
def Snapshot.marshal (s : Snapshot) : SnapshotJson where
  number := s.number
  hash := Hexutil.encode s.hash
  signers := writeKeys addressKey s.signers
  recents := writeMembers numberKey Hexutil.encode s.recents
  votes := s.votes.map Vote.marshal
  tally := writeMembers addressKey id s.tally

/-- `json.Unmarshal` into a new snapshot; its error is not looked at. -/
def SnapshotJson.unmarshal (json : SnapshotJson) : Option Snapshot := do
  let hash ← readHash json.hash
  let signers ← readKeys readAddress json.signers
  let recents ← readMembers parseUint readAddress json.recents
  let votes ← json.votes.mapM VoteJson.unmarshal
  let tally ← readMembers readAddress some json.tally
  some ⟨json.number, hash, signers, recents, votes, tally⟩

/-- The arrays of a snapshot have the lengths of their types. -/
structure Snapshot.Sized (s : Snapshot) : Prop where
  hash : s.hash.length = 32
  signers : ∀ a ∈ s.signers, a.length = addressLength
  recents : ∀ n a, s.recents.lookup n = some a → a.length = addressLength
  votes : ∀ v ∈ s.votes, v.signer.length = addressLength ∧ v.address.length = addressLength
  tally : ∀ a ∈ s.tally.keys, a.length = addressLength

theorem readAddress_encode {a : Address} (h : a.length = addressLength) :
    readAddress (Hexutil.encode a) = some a := by
  rw [readAddress, Hexutil.unmarshalFixed_encode _ h]
  rfl

theorem unmarshal_marshal {s : Snapshot} (h : s.Sized) : s.marshal.unmarshal = some s := by
  have hhash : readHash (Hexutil.encode s.hash) = some s.hash := by
    rw [readHash, Hexutil.unmarshalFixed_encode _ h.hash]
    rfl
  have hsigners := readKeys_writeKeys addressKey readAddress s.signers fun a ha =>
    readAddress_encode (h.signers a ha)
  have hrecents := readMembers_writeMembers numberKey parseUint Hexutil.encode readAddress s.recents
    (fun n _ => parseUint_formatUint n) fun n a ha => readAddress_encode (h.recents n a ha)
  have hvotes := mapM_map_of_forall (f := Vote.marshal) (g := VoteJson.unmarshal) s.votes
    fun v hv => by
      simp [VoteJson.unmarshal, Vote.marshal, readAddress_encode (h.votes v hv).1,
        readAddress_encode (h.votes v hv).2]
  have htally := readMembers_writeMembers addressKey readAddress id some s.tally
    (fun a ha => readAddress_encode (h.tally a ha)) fun _ _ _ => rfl
  simp only [SnapshotJson.unmarshal, Snapshot.marshal, hhash, hsigners, hrecents, hvotes, htally,
    Option.bind_eq_bind, Option.bind_some]

end Clique

/-! ## The engine -/

structure Clique where
  config : CliqueConfig
  /-- The snapshots on disk, by the hash of their block. -/
  db : Hash → Option Clique.SnapshotJson
  /-- The snapshots in memory. -/
  recents : Hash → Option Clique.Snapshot
  /-- The signer of a header; the source also keeps those it has recovered. -/
  signatures : Header → Except CliqueError Address

namespace Clique

def epochLength : UInt64 := 30000

def checkpointInterval : Nat := 1024

/-- `params.ImmutabilityThreshold`. -/
def immutabilityThreshold : Nat := 90000

/-- `New`. -/
def new [HashFns] {PrivateKey PublicKey : Type} (C : Crypto PrivateKey PublicKey)
    (config : CliqueConfig) (db : Hash → Option SnapshotJson) : Clique where
  config := if config.epoch = 0 then { config with epoch := epochLength } else config
  db := db
  recents := fun _ => none
  signatures := ecrecover C

def loadSnapshot (c : Clique) (hash : Hash) : Option Snapshot :=
  (c.db hash).bind SnapshotJson.unmarshal

def store (c : Clique) (snap : Snapshot) : Clique :=
  { c with db := Function.update c.db snap.hash (some snap.marshal) }

/-- The signer list in the extra-data of a checkpoint; shorter extra-data is a panic. -/
def checkpointSigners (extra : Bytes) : Except CliqueError (List Address) :=
  if extra.length + addressLength ≤ extraVanity + extraSeal then
    .error (.panics "makeslice: len out of range")
  else
    .ok ((List.range ((extra.length - extraVanity - extraSeal) / addressLength)).map fun i =>
      (extra.drop (extraVanity + i * addressLength)).take addressLength)

/-- Whether the header of a number is trusted: the genesis, and a checkpoint whose parent is
missing or with more headers above it than may be reorged. -/
def trusts (c : Clique) (chain : HeaderReader) (number gathered : Nat) : Bool :=
  number = 0 || (UInt64.ofNat number % c.config.epoch = 0 && (gathered > immutabilityThreshold ||
      (chain.getHeaderByNumber (UInt64.ofNat number - 1)).isNone))

variable {c : Clique} {chain : HeaderReader} {number : Nat}

theorem trusts_of_missing (hepoch : UInt64.ofNat number % c.config.epoch = 0)
    (hnone : chain.getHeaderByNumber (UInt64.ofNat number - 1) = none) (gathered : Nat) :
    c.trusts chain number gathered = true := by
  simp [trusts, hepoch, hnone]

section Engine

variable [HashFns]

/-- The next header of the walk, from the explicit parents as long as there are any. -/
def gather (chain : HeaderReader) (number : UInt64) (hash : Hash) (parents : List Header) :
    Except CliqueError (Header × List Header) :=
  match parents.getLast? with
  | some header =>
    if header.hash ≠ hash ∨ header.numberU64 ≠ number then .error .unknownAncestor
    else .ok (header, parents.dropLast)
  | none =>
    match chain.getHeader hash number with
    | none => .error .unknownAncestor
    | some header => .ok (header, [])

/-- The snapshot that the loop of `snapshot` ends with, if it ends at this number: from memory,
from disk, or a trusted checkpoint, which is stored. -/
def base (c : Clique) (chain : HeaderReader) (number : Nat) (hash : Hash) (gathered : Nat) :
    Option (Except CliqueError (Clique × Snapshot)) :=
  match c.recents hash with
  | some snap => some (.ok (c, snap))
  | none =>
    match if number % checkpointInterval = 0 then c.loadSnapshot hash else none with
    | some snap => some (.ok (c, snap))
    | none =>
      match
        if c.trusts chain number gathered then chain.getHeaderByNumber (UInt64.ofNat number)
        else none with
      | none => none
      | some checkpoint =>
        match checkpointSigners checkpoint.extra with
        | .error err => some (.error err)
        | .ok signers =>
          let snap := newSnapshot (UInt64.ofNat number) checkpoint.hash signers
          some (.ok (c.store snap, snap))

/-- The loop of `snapshot`, with the number as fuel: below number 0 there is no header. It
returns the headers above the snapshot it ends with, in ascending order. -/
def findBase (c : Clique) (chain : HeaderReader) :
    Nat → Hash → List Header → List Header → Except CliqueError (Clique × Snapshot × List Header)
  | number, hash, parents, headers =>
    match c.base chain number hash headers.length with
    | some (.error err) => .error err
    | some (.ok (c, snap)) => .ok (c, snap, headers)
    | none =>
      match gather chain (UInt64.ofNat number) hash parents with
      | .error err => .error err
      | .ok (header, parents) =>
        match number with
        | 0 => .error .unknownAncestor
        | number + 1 => c.findBase chain number header.parentHash parents (header :: headers)

def snapshot (c : Clique) (chain : HeaderReader) (number : UInt64) (hash : Hash)
    (parents : List Header) : Except CliqueError Snapshot × Clique :=
  match c.findBase chain number.toNat hash parents [] with
  | .error err => (.error err, c)
  | .ok (c, base, headers) =>
    match base.apply c.config c.signatures headers with
    | .error err => (.error err, c)
    | .ok snap =>
      let c := { c with recents := Function.update c.recents snap.hash (some snap) }
      let c := if snap.number.toNat % checkpointInterval = 0 ∧ headers ≠ [] then c.store snap else c
      (.ok snap, c)

/-! ## Verification -/

def diffInTurn : Nat := 2

def diffNoTurn : Nat := 1

/-- What `verifySeal` asks of the signer, with the snapshot of the parent. The subtraction
wraps below zero. -/
def checkSeal (c : Clique) (snap : Snapshot) (header : Header) : Except CliqueError Unit :=
  match c.signatures header with
  | .error err => .error err
  | .ok signer =>
    if signer ∉ snap.signers then .error .unauthorizedSigner
    else if ∃ seen ∈ snap.recents.keys, snap.recents.lookup seen = some signer ∧
        seen > header.numberU64 - UInt64.ofNat snap.limit then .error .recentlySigned
    else
      match snap.inturn header.numberU64 signer with
      | none => .error (.panics "integer divide by zero")
      | some inturn =>
        if header.difficulty ≠ if inturn then diffInTurn else diffNoTurn then
          .error .wrongDifficulty
        else .ok ()

def verifySeal (c : Clique) (chain : HeaderReader) (header : Header) (parents : List Header) :
    Except CliqueError Unit × Clique :=
  if header.numberU64 = 0 then (.error .unknownBlock, c)
  else
    match c.snapshot chain (header.numberU64 - 1) header.parentHash parents with
    | (.error err, c) => (.error err, c)
    | (.ok snap, c) => (c.checkSeal snap header, c)

/-- The signer list that a checkpoint header has to carry. -/
def checkCheckpoint (config : CliqueConfig) (snap : Snapshot) (header : Header) :
    Except CliqueError Unit :=
  if header.numberU64 % config.epoch = 0 ∧
      (header.extra.take (header.extra.length - extraSeal)).drop extraVanity ≠
        snap.sortedSigners.flatten then .error .mismatchingCheckpointSigners
  else .ok ()

def verifyCascadingFields (c : Clique) (chain : HeaderReader) (header : Header)
    (parents : List Header) : Except CliqueError Unit × Clique :=
  let number := header.numberU64
  if number = 0 then (.ok (), c)
  else
    let parent :=
      match parents.getLast? with
      | some parent => some parent
      | none => chain.getHeader header.parentHash (number - 1)
    match parent with
    | none => (.error .unknownAncestor, c)
    | some parent =>
      if parent.numberU64 ≠ number - 1 ∨ parent.hash ≠ header.parentHash then
        (.error .unknownAncestor, c)
      else if parent.time + c.config.period > header.time then (.error .invalidTimestamp, c)
      else
        match c.snapshot chain (number - 1) header.parentHash parents with
        | (.error err, c) => (.error err, c)
        | (.ok snap, c) =>
          match checkCheckpoint c.config snap header with
          | .error err => (.error err, c)
          | .ok () => c.verifySeal chain header parents

/-- `misc.VerifyForkHashes`. -/
def verifyForkHashes (chain : HeaderReader) (header : Header) : Except CliqueError Unit :=
  if chain.eip150Block = some header.number ∧ chain.eip150Hash ≠ List.replicate 32 0 ∧
      chain.eip150Hash ≠ header.hash then .error (.forkHash header.hash chain.eip150Hash)
  else .ok ()

/-- The checks of `verifyHeader` that need no other header. -/
def checkFields (config : CliqueConfig) (chain : HeaderReader) (now : UInt64) (header : Header) :
    Except CliqueError Unit :=
  let number := header.numberU64
  let checkpoint := number % config.epoch = 0
  let signersBytes := header.extra.length - extraVanity - extraSeal
  if header.time > now then .error .futureBlock
  else if checkpoint ∧ header.coinbase ≠ zeroAddress then .error .invalidCheckpointBeneficiary
  else if header.nonce ≠ nonceAuthVote ∧ header.nonce ≠ nonceDropVote then .error .invalidVote
  else if checkpoint ∧ header.nonce ≠ nonceDropVote then .error .invalidCheckpointVote
  else if header.extra.length < extraVanity then .error .missingVanity
  else if header.extra.length < extraVanity + extraSeal then .error .missingSignature
  else if ¬ checkpoint ∧ signersBytes ≠ 0 then .error .extraSigners
  else if checkpoint ∧ signersBytes % addressLength ≠ 0 then .error .invalidCheckpointSigners
  else if header.mixDigest ≠ List.replicate 32 0 then .error .invalidMixDigest
  else if header.uncleHash ≠ HashFns.keccak256 (Rlp.encodeList []) then .error .invalidUncleHash
  else if number > 0 ∧ header.difficulty ≠ diffInTurn ∧ header.difficulty ≠ diffNoTurn then
    .error .invalidDifficulty
  else verifyForkHashes chain header

def verifyHeader (c : Clique) (chain : HeaderReader) (now : UInt64) (header : Header)
    (parents : List Header) : Except CliqueError Unit × Clique :=
  match checkFields c.config chain now header with
  | .error err => (.error err, c)
  | .ok () => c.verifyCascadingFields chain header parents

/-! ## What finding a snapshot leaves alone -/

variable {c' : Clique} {gathered : Nat} {hash : Hash} {snap : Snapshot} {parents : List Header}

theorem base_eq_ok (h : c.base chain number hash gathered = some (.ok (c', snap))) :
    (c' = c ∧ (c.recents hash = some snap ∨
      (number % checkpointInterval = 0 ∧ c.loadSnapshot hash = some snap))) ∨
    (c' = c.store snap ∧ c.trusts chain number gathered = true ∧ ∃ checkpoint signers,
      chain.getHeaderByNumber (UInt64.ofNat number) = some checkpoint ∧
      checkpointSigners checkpoint.extra = .ok signers ∧
      snap = newSnapshot (UInt64.ofNat number) checkpoint.hash signers) := by
  unfold base at h
  cases hmem : c.recents hash with
  | some s =>
    rw [hmem] at h
    cases h
    exact .inl ⟨rfl, .inl rfl⟩
  | none =>
    rw [hmem] at h
    dsimp only at h
    split at h
    · rename_i s hdisk
      cases h
      split_ifs at hdisk with hinterval
      exact .inl ⟨rfl, .inr ⟨hinterval, hdisk⟩⟩
    · split at h
      · cases h
      · rename_i checkpoint hcheck
        split_ifs at hcheck with htrust
        split at h
        · cases h
        · rename_i signers hsigners
          cases h
          exact .inr ⟨rfl, htrust, checkpoint, signers, hcheck, hsigners, rfl⟩

theorem base_eq_none (h : c.base chain number hash gathered = none)
    (ht : c.trusts chain number gathered = true) :
    chain.getHeaderByNumber (UInt64.ofNat number) = none := by
  unfold base at h
  split at h
  · cases h
  · split at h
    · cases h
    · rw [if_pos ht] at h
      cases hget : chain.getHeaderByNumber (UInt64.ofNat number) with
      | none => rfl
      | some checkpoint =>
        rw [hget] at h
        dsimp only at h
        split at h <;> cases h

theorem base_eq_error {err : CliqueError}
    (h : c.base chain number hash gathered = some (.error err)) :
    c.trusts chain number gathered = true ∧ ∃ checkpoint,
      chain.getHeaderByNumber (UInt64.ofNat number) = some checkpoint ∧
      checkpointSigners checkpoint.extra = .error err := by
  unfold base at h
  split at h
  · cases h
  · split at h
    · cases h
    · split at h
      · cases h
      · rename_i checkpoint hcheck
        split_ifs at hcheck with htrust
        split at h
        · rename_i err' herr
          cases h
          exact ⟨htrust, checkpoint, hcheck, herr⟩
        · cases h

theorem findBase_cases {headers above : List Header}
    (h : c.findBase chain number hash parents headers = .ok (c', snap, above)) :
    (c.base chain number hash headers.length = some (.ok (c', snap)) ∧ above = headers) ∨
      ∃ n header parents', number = n + 1 ∧ c.base chain number hash headers.length = none ∧
        gather chain (UInt64.ofNat number) hash parents = .ok (header, parents') ∧
        c.findBase chain n header.parentHash parents' (header :: headers) =
          .ok (c', snap, above) := by
  unfold findBase at h
  cases hbase : c.base chain number hash headers.length with
  | some r =>
    rw [hbase] at h
    cases r with
    | error err => cases h
    | ok r =>
      cases h
      exact .inl ⟨rfl, rfl⟩
  | none =>
    rw [hbase] at h
    dsimp only at h
    cases hgather : gather chain (UInt64.ofNat number) hash parents with
    | error err => rw [hgather] at h; cases h
    | ok r =>
      rw [hgather] at h
      cases number with
      | zero => cases h
      | succ n => exact .inr ⟨n, r.1, r.2, rfl, rfl, rfl, h⟩

theorem findBase_config (number : Nat) {headers above : List Header}
    (h : c.findBase chain number hash parents headers = .ok (c', snap, above)) :
    c'.config = c.config ∧ c'.signatures = c.signatures := by
  induction number using Nat.strong_induction_on generalizing hash parents headers with
  | _ number ih =>
    rcases findBase_cases h with ⟨hbase, -⟩ | ⟨n, header, parents', rfl, -, -, hrest⟩
    · rcases base_eq_ok hbase with ⟨rfl, -⟩ | ⟨rfl, -⟩ <;> exact ⟨rfl, rfl⟩
    · exact ih n n.lt_succ_self hrest

theorem snapshot_config {number : UInt64} {result : Except CliqueError Snapshot}
    (h : c.snapshot chain number hash parents = (result, c')) :
    c'.config = c.config ∧ c'.signatures = c.signatures := by
  unfold snapshot at h
  cases hfind : c.findBase chain number.toNat hash parents [] with
  | error err =>
    rw [hfind] at h
    cases h
    exact ⟨rfl, rfl⟩
  | ok r =>
    obtain ⟨c1, snap, above⟩ := r
    have hc1 := findBase_config number.toNat hfind
    rw [hfind] at h
    dsimp only at h
    split at h
    · cases h
      exact hc1
    · cases h
      split_ifs <;> exact hc1

end Engine

end Clique

end GethComments
