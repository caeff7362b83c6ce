import GethComments.Common.Hexutil
import GethComments.Crypto.Signature
import GethComments.Lib.Run
import GethComments.Types.Block
import Mathlib.Data.Finmap

/-!
# Snapshots of the clique votes

`consensus/clique/snapshot.go`: the votes of the signers, their tally, the signers that sealed
lately, and `apply`, which carries them over a list of headers. The recovery of a signer from
a header is an argument; the length of a map is a number without bound.

* `applyHeader_eq_ok`, `applyHeader_spec`: what an accepted header does to a snapshot;
* `Alike.apply`: headers that are accepted are also accepted with fewer recent signers;
* `apply_eq_ok`, `apply_append_eq_ok`: a snapshot after a list of headers.
-/

namespace GethComments

open List Finmap

/-- The errors of package `clique`, with those of `consensus` that it returns. -/
inductive CliqueError where
  | unknownBlock
  | invalidCheckpointBeneficiary
  | invalidVote
  | invalidCheckpointVote
  | missingVanity
  | missingSignature
  | extraSigners
  | invalidCheckpointSigners
  | mismatchingCheckpointSigners
  | invalidMixDigest
  | invalidUncleHash
  | invalidDifficulty
  | wrongDifficulty
  | invalidTimestamp
  | invalidVotingChain
  | unauthorizedSigner
  | recentlySigned
  | futureBlock
  | unknownAncestor
  /-- The hash of the header and the one that the chain configuration asks for. -/
  | forkHash (got want : Hash)
  /-- An error of package `crypto`. -/
  | crypto (err : SignError)
  /-- A run-time panic. -/
  | panics (msg : String)
  deriving DecidableEq, Repr

structure CliqueConfig where
  period : UInt64
  epoch : UInt64
  deriving DecidableEq

namespace Clique

/-! ## Snapshots -/

structure Vote where
  signer : Address
  block : UInt64
  address : Address
  authorize : Bool
  deriving DecidableEq

structure Tally where
  authorize : Bool
  votes : Nat
  deriving DecidableEq

structure Snapshot where
  number : UInt64
  hash : Hash
  signers : Finset Address
  /-- The signer of a block number. -/
  recents : Finmap fun _ : UInt64 => Address
  votes : List Vote
  tally : Finmap fun _ : Address => Tally
  deriving DecidableEq

def newSnapshot (number : UInt64) (hash : Hash) (signers : List Address) : Snapshot :=
  { number, hash, signers := signers.toFinset, recents := ∅, votes := [], tally := ∅ }

def nonceAuthVote : Bytes := replicate 8 0xff

def nonceDropVote : Bytes := replicate 8 0

/-- The vote that the nonce of a header stands for. -/
def voteOfNonce (nonce : Bytes) : Except CliqueError Bool :=
  if nonce = nonceAuthVote then .ok true
  else if nonce = nonceDropVote then .ok false
  else .error .invalidVote

namespace Snapshot

/-! ## Votes -/

def validVote (s : Snapshot) (address : Address) (authorize : Bool) : Bool :=
  let signer := decide (address ∈ s.signers)
  (signer && !authorize) || (!signer && authorize)

def cast (s : Snapshot) (address : Address) (authorize : Bool) : Bool × Snapshot :=
  if s.validVote address authorize = false then (false, s)
  else
    match s.tally.lookup address with
    | some old =>
      (true, { s with tally := s.tally.insert address { old with votes := old.votes + 1 } })
    | none => (true, { s with tally := s.tally.insert address ⟨authorize, 1⟩ })

def uncast (s : Snapshot) (address : Address) (authorize : Bool) : Bool × Snapshot :=
  match s.tally.lookup address with
  -- a dangling vote
  | none => (false, s)
  | some tally =>
    if tally.authorize ≠ authorize then (false, s)
    else if tally.votes > 1 then
      (true, { s with tally := s.tally.insert address { tally with votes := tally.votes - 1 } })
    else (true, { s with tally := s.tally.erase address })

/-! ## The steps of `apply` -/

/-- A signer that sealed one of the last blocks, this one included, waits. -/
def limit (s : Snapshot) : Nat := s.signers.card / 2 + 1

/-- The votes are removed on checkpoint blocks. -/
def clearVotes (s : Snapshot) (config : CliqueConfig) (number : UInt64) : Snapshot :=
  if number % config.epoch = 0 then { s with votes := [], tally := ∅ } else s

/-- `delete(recents, number-limit)`, where the number is large enough. -/
def shift (recents : Finmap fun _ : UInt64 => Address) (limit : Nat) (number : UInt64) :
    Finmap fun _ : UInt64 => Address :=
  if limit ≤ number.toNat then recents.erase (number - UInt64.ofNat limit) else recents

/-- The oldest signer leaves the recent ones. -/
def shiftRecents (s : Snapshot) (number : UInt64) : Snapshot :=
  { s with recents := shift s.recents s.limit number }

/-- The signer of a header, if it is authorized and did not sign recently. -/
def checkSigner (s : Snapshot) (recover : Header → Except CliqueError Address) (header : Header) :
    Except CliqueError Address :=
  match recover header with
  | .error err => .error err
  | .ok signer =>
    if signer ∉ s.signers then .error .unauthorizedSigner
    else if ∃ n ∈ s.recents.keys, s.recents.lookup n = some signer then .error .recentlySigned
    else .ok signer

/-- The first vote that a signer has for an account is taken back. -/
def discardVote (s : Snapshot) (signer address : Address) : Snapshot :=
  match s.votes.find? fun v => v.signer = signer ∧ v.address = address with
  | none => s
  | some v =>
    { (s.uncast v.address v.authorize).2 with
      votes := s.votes.eraseP fun v => v.signer = signer ∧ v.address = address }

/-- A vote that makes sense is tallied and appended. -/
def addVote (s : Snapshot) (v : Vote) : Snapshot :=
  let (counted, s) := s.cast v.address v.authorize
  if counted then { s with votes := s.votes ++ [v] } else s

/-- The votes that an account cast are taken back one after the other. -/
def discardCast (s : Snapshot) (address : Address) : Snapshot :=
  { (s.votes.filter fun v => v.signer = address).foldl
      (fun s v => (s.uncast v.address v.authorize).2) s with
    votes := s.votes.filter fun v => v.signer ≠ address }

def enroll (s : Snapshot) (address : Address) : Snapshot :=
  { s with signers := insert address s.signers }

/-- The signer list shrinks: a leftover recent signer and the votes of the removed one go. -/
def dismiss (s : Snapshot) (number : UInt64) (address : Address) : Snapshot :=
  ({ s with signers := s.signers.erase address }.shiftRecents number).discardCast address

/-- The votes around an account that just changed are discarded. -/
def forget (s : Snapshot) (address : Address) : Snapshot :=
  { s with
    votes := s.votes.filter fun v => v.address ≠ address
    tally := s.tally.erase address }

/-- If the vote on an account passed, the list of signers is updated. -/
def settle (s : Snapshot) (number : UInt64) (address : Address) : Snapshot :=
  let tally := (s.tally.lookup address).getD ⟨false, 0⟩
  if tally.votes > s.signers.card / 2 then
    (if tally.authorize then s.enroll address else s.dismiss number address).forget address
  else s

/-! ## `apply` -/

/-- One header of the loop of `apply`. -/
def applyHeader (config : CliqueConfig) (recover : Header → Except CliqueError Address)
    (s : Snapshot) (header : Header) : Except CliqueError Snapshot := do
  let number := header.numberU64
  let s := (s.clearVotes config number).shiftRecents number
  let signer ← s.checkSigner recover header
  let s := { s with recents := s.recents.insert number signer }
  let s := s.discardVote signer header.coinbase
  let authorize ← voteOfNonce header.nonce
  let s := s.addVote { signer, block := number, address := header.coinbase, authorize }
  .ok (s.settle number header.coinbase)

/-- The headers follow each other, the first one the given number. -/
def follows (number : UInt64) : List Header → Bool
  | [] => true
  | header :: headers => header.numberU64 = number + 1 && follows header.numberU64 headers

def apply (config : CliqueConfig) (recover : Header → Except CliqueError Address) [HashFns]
    (s : Snapshot) (headers : List Header) : Except CliqueError Snapshot :=
  match headers.getLast? with
  | none => .ok s
  | some last =>
    if follows s.number headers = false then .error .invalidVotingChain
    else do
      let snap ← headers.foldlM (applyHeader config recover) s
      .ok { snap with number := snap.number + UInt64.ofNat headers.length, hash := last.hash }

/-! ## Turns -/

/-- `signers`: in ascending order of their bytes. -/
def sortedSigners (s : Snapshot) : List Address := s.signers.sort (· ≤ ·)

/-- The division by the number of signers panics where there is none. -/
def inturn (s : Snapshot) (number : UInt64) (signer : Address) : Option Bool :=
  let signers := s.sortedSigners
  if signers.length = 0 then none
  else some (number % UInt64.ofNat signers.length = UInt64.ofNat (signers.idxOf signer))

/-! ## What an accepted header does -/

section Apply

variable {config : CliqueConfig} {recover : Header → Except CliqueError Address}
  {s s' : Snapshot} {header : Header}

theorem checkSigner_eq_ok {signer : Address} (h : s.checkSigner recover header = .ok signer) :
    recover header = .ok signer ∧ signer ∈ s.signers ∧ ∀ n, s.recents.lookup n ≠ some signer := by
  unfold checkSigner at h
  split at h
  · cases h
  · rename_i signer' hrec
    split_ifs at h with hmem hrecent
    obtain rfl := Except.ok.inj h
    refine ⟨hrec, hmem, fun n hn => hrecent ⟨n, ?_, hn⟩⟩
    exact mem_keys.mpr (mem_of_lookup_eq_some hn)

/-- The snapshot with the signer of a header among the recent ones. -/
def sealed (s : Snapshot) (config : CliqueConfig) (number : UInt64) (signer : Address) : Snapshot :=
  let s := (s.clearVotes config number).shiftRecents number
  { s with recents := s.recents.insert number signer }

theorem applyHeader_eq_ok (h : applyHeader config recover s header = .ok s') : ∃ signer authorize,
      ((s.clearVotes config header.numberU64).shiftRecents header.numberU64).checkSigner
        recover header = .ok signer ∧
      voteOfNonce header.nonce = .ok authorize ∧
      s' = (((s.sealed config header.numberU64 signer).discardVote signer header.coinbase).addVote
        ⟨signer, header.numberU64, header.coinbase, authorize⟩).settle
          header.numberU64 header.coinbase := by
  simp only [applyHeader, bind, Except.bind] at h
  split at h
  · cases h
  · rename_i signer hsigner
    split at h
    · cases h
    · rename_i authorize hvote
      exact ⟨signer, authorize, hsigner, hvote, (Except.ok.inj h).symm⟩

/-! ## What the steps leave alone -/

section Frame

variable (s : Snapshot) (number : UInt64) (signer address : Address) (v : Vote)

/-- The signers and the votes alone. -/
def ledger : Snapshot := { s with number := 0, hash := [], recents := ∅ }

theorem uncast_eq (authorize : Bool) : (s.uncast address authorize).2 =
      { s with tally := (s.ledger.uncast address authorize).2.tally } := by
  unfold uncast
  dsimp only [ledger]
  split
  · rfl
  · split_ifs <;> rfl

theorem foldl_uncast_eq (vs : List Vote) :
    vs.foldl (fun s v => (s.uncast v.address v.authorize).2) s =
      { s with
        tally := (vs.foldl (fun s v => (s.uncast v.address v.authorize).2) s.ledger).tally } := by
  induction vs generalizing s with
  | nil => rfl
  | cons v vs ih =>
    rw [foldl_cons, foldl_cons, ih, uncast_eq s, uncast_eq s.ledger]
    rfl

theorem clearVotes_eq (config : CliqueConfig) : s.clearVotes config number = { s with
        votes := (s.ledger.clearVotes config number).votes
        tally := (s.ledger.clearVotes config number).tally } := by
  unfold clearVotes
  split_ifs <;> rfl

theorem discardVote_eq : s.discardVote signer address = { s with
        votes := (s.ledger.discardVote signer address).votes
        tally := (s.ledger.discardVote signer address).tally } := by
  unfold discardVote
  dsimp only [ledger]
  split
  · rfl
  · rw [uncast_eq]
    rfl

theorem addVote_eq : s.addVote v =
    { s with votes := (s.ledger.addVote v).votes, tally := (s.ledger.addVote v).tally } := by
  have hvalid : s.ledger.validVote v.address v.authorize = s.validVote v.address v.authorize := rfl
  unfold addVote cast
  rw [hvalid]
  dsimp only [ledger]
  cases s.validVote v.address v.authorize
  · rfl
  · cases s.tally.lookup v.address <;> rfl

theorem addVote_of_invalid (h : s.validVote v.address v.authorize = false) : s.addVote v = s := by
  simp [addVote, cast, h]

theorem discardCast_eq : s.discardCast address = { s with
        votes := s.votes.filter fun v => v.signer ≠ address
        tally := (s.ledger.discardCast address).tally } := by
  unfold discardCast
  rw [foldl_uncast_eq s]
  rfl

theorem dismiss_eq : s.dismiss number address = { s with
        signers := s.signers.erase address
        recents := shift s.recents ((s.signers.erase address).card / 2 + 1) number
        votes := s.votes.filter fun v => v.signer ≠ address
        tally :=
          ({ s.ledger with signers := s.signers.erase address }.discardCast address).tally } := by
  rw [dismiss, discardCast_eq]
  rfl

end Frame

/-- The signer of an accepted header, what it is checked against, and what becomes of the
signers and the recent ones. -/
theorem applyHeader_spec (h : applyHeader config recover s header = .ok s') :
    ∃ signer, recover header = .ok signer ∧ signer ∈ s.signers ∧
      (∀ n, (shift s.recents s.limit header.numberU64).lookup n ≠ some signer) ∧
      s'.number = s.number ∧ s'.hash = s.hash ∧
      ((s'.recents = (shift s.recents s.limit header.numberU64).insert header.numberU64 signer ∧
          (s'.signers = s.signers ∨ s'.signers = insert header.coinbase s.signers)) ∨
        (s'.recents = shift ((shift s.recents s.limit header.numberU64).insert header.numberU64
            signer) s'.limit header.numberU64 ∧
          s'.signers = s.signers.erase header.coinbase)) := by
  obtain ⟨signer, authorize, hcheck, -, rfl⟩ := applyHeader_eq_ok h
  obtain ⟨hrec, hmem, hnot⟩ := checkSigner_eq_ok hcheck
  rw [clearVotes_eq] at hmem hnot
  refine ⟨signer, hrec, hmem, hnot, ?_⟩
  rw [addVote_eq, discardVote_eq, sealed, clearVotes_eq]
  unfold settle
  dsimp only
  split_ifs
  · exact ⟨rfl, rfl, .inl ⟨rfl, .inr rfl⟩⟩
  · rw [dismiss_eq]
    exact ⟨rfl, rfl, .inr ⟨rfl, rfl⟩⟩
  · exact ⟨rfl, rfl, .inl ⟨rfl, .inl rfl⟩⟩

variable {headers : List Header}

theorem label_of_foldlM (h : headers.foldlM (applyHeader config recover) s = .ok s') :
    s'.number = s.number ∧ s'.hash = s.hash := by
  refine Run.foldlM_ok_invariant (P := fun t => t.number = s.number ∧ t.hash = s.hash) headers ?_
    ⟨rfl, rfl⟩ h
  intro t t' header _ ht ha
  obtain ⟨_, -, -, -, hnumber, hhash, -⟩ := applyHeader_spec ha
  exact ⟨hnumber.trans ht.1, hhash.trans ht.2⟩

/-! ## Snapshots with fewer recent signers -/

/-- The second snapshot has the signers, votes and tally of the first, and of its recent
signers those at the block numbers to keep. -/
structure Alike (keep : UInt64 → Prop) (s t : Snapshot) : Prop where
  signers : t.signers = s.signers
  votes : t.votes = s.votes
  tally : t.tally = s.tally
  kept : ∀ n, keep n → t.recents.lookup n = s.recents.lookup n
  dropped : ∀ n, ¬ keep n → t.recents.lookup n = none

namespace Alike

variable {keep : UInt64 → Prop} {t : Snapshot}

section

variable (h : Alike keep s t)

include h

theorem ledger_eq : t.ledger = s.ledger := by rw [ledger, ledger, h.signers, h.votes, h.tally]

theorem clearVotes (config : CliqueConfig) (number : UInt64) :
    Alike keep (s.clearVotes config number) (t.clearVotes config number) := by
  rw [clearVotes_eq s, clearVotes_eq t, h.ledger_eq]
  exact ⟨h.signers, rfl, rfl, h.kept, h.dropped⟩

theorem lookup_shift (limit : Nat) (number : UInt64) : (∀ n, keep n →
        (shift t.recents limit number).lookup n = (shift s.recents limit number).lookup n) ∧
      ∀ n, ¬ keep n → (shift t.recents limit number).lookup n = none := by
  unfold shift
  split_ifs
  · refine ⟨fun n hn => ?_, fun n hn => ?_⟩ <;> by_cases heq : n = number - UInt64.ofNat limit
    · rw [heq, lookup_erase, lookup_erase]
    · rw [lookup_erase_ne heq, lookup_erase_ne heq, h.kept n hn]
    · rw [heq, lookup_erase]
    · rw [lookup_erase_ne heq, h.dropped n hn]
  · exact ⟨h.kept, h.dropped⟩

theorem shiftRecents (number : UInt64) :
    Alike keep (s.shiftRecents number) (t.shiftRecents number) := by
  obtain ⟨hkept, hdropped⟩ := h.lookup_shift s.limit number
  have hlimit : t.limit = s.limit := by rw [limit, limit, h.signers]
  refine ⟨h.signers, h.votes, h.tally, ?_, ?_⟩ <;> unfold Snapshot.shiftRecents <;> rw [hlimit]
  · exact hkept
  · exact hdropped

theorem insert {number : UInt64} (hkeep : keep number) (signer : Address) :
    Alike keep { s with recents := s.recents.insert number signer }
      { t with recents := t.recents.insert number signer } := by
  refine ⟨h.signers, h.votes, h.tally, fun n hn => ?_, fun n hn => ?_⟩
  · by_cases heq : n = number
    · subst heq
      rw [lookup_insert, lookup_insert]
    · rw [lookup_insert_of_ne _ heq, lookup_insert_of_ne _ heq, h.kept n hn]
  · have heq : n ≠ number := fun heq => hn (heq ▸ hkeep)
    rw [lookup_insert_of_ne _ heq, h.dropped n hn]

theorem checkSigner {signer : Address} (hs : s.checkSigner recover header = .ok signer) :
    t.checkSigner recover header = .ok signer := by
  obtain ⟨hrec, hmem, hnot⟩ := checkSigner_eq_ok hs
  have hnone : ¬ ∃ n ∈ t.recents.keys, t.recents.lookup n = some signer := by
    rintro ⟨n, -, hn⟩
    by_cases hkeep : keep n
    · exact hnot n ((h.kept n hkeep).symm.trans hn)
    · exact Option.some_ne_none signer (hn.symm.trans (h.dropped n hkeep))
  rw [Snapshot.checkSigner, hrec]
  dsimp only
  rw [if_neg (not_not.mpr (h.signers ▸ hmem)), if_neg hnone]

theorem discardVote (signer address : Address) :
    Alike keep (s.discardVote signer address) (t.discardVote signer address) := by
  rw [discardVote_eq s, discardVote_eq t, h.ledger_eq]
  exact ⟨h.signers, rfl, rfl, h.kept, h.dropped⟩

theorem addVote (v : Vote) : Alike keep (s.addVote v) (t.addVote v) := by
  rw [addVote_eq s, addVote_eq t, h.ledger_eq]
  exact ⟨h.signers, rfl, rfl, h.kept, h.dropped⟩

theorem dismiss (number : UInt64) (address : Address) :
    Alike keep (s.dismiss number address) (t.dismiss number address) := by
  obtain ⟨hkept, hdropped⟩ := h.lookup_shift ((s.signers.erase address).card / 2 + 1) number
  rw [dismiss_eq s, dismiss_eq t, h.ledger_eq, h.signers, h.votes]
  exact ⟨rfl, rfl, rfl, hkept, hdropped⟩

theorem forget (address : Address) : Alike keep (s.forget address) (t.forget address) := by
  refine ⟨h.signers, ?_, ?_, h.kept, h.dropped⟩
  · rw [Snapshot.forget, Snapshot.forget, h.votes]
  · rw [Snapshot.forget, Snapshot.forget, h.tally]

theorem settle (number : UInt64) (address : Address) :
    Alike keep (s.settle number address) (t.settle number address) := by
  have henroll : Alike keep (s.enroll address) (t.enroll address) :=
    ⟨by rw [enroll, enroll, h.signers], h.votes, h.tally, h.kept, h.dropped⟩
  unfold Snapshot.settle
  rw [h.tally, h.signers]
  dsimp only
  split_ifs
  · exact henroll.forget address
  · exact (h.dismiss number address).forget address
  · exact h

theorem applyHeader (hkeep : keep header.numberU64)
    (ha : applyHeader config recover s header = .ok s') :
    ∃ t', applyHeader config recover t header = .ok t' ∧ Alike keep s' t' := by
  obtain ⟨signer, authorize, hcheck, hvote, rfl⟩ := applyHeader_eq_ok ha
  have hshift := (h.clearVotes config header.numberU64).shiftRecents header.numberU64
  have hseal := ((hshift.insert hkeep signer).discardVote signer header.coinbase).addVote
    ⟨signer, header.numberU64, header.coinbase, authorize⟩
  refine ⟨_, ?_, hseal.settle header.numberU64 header.coinbase⟩
  simp only [Snapshot.applyHeader, hshift.checkSigner hcheck, hvote, bind, Except.bind]

theorem foldlM (headers : List Header) (hkeep : ∀ header ∈ headers, keep header.numberU64)
    (ha : headers.foldlM (Snapshot.applyHeader config recover) s = .ok s') :
    ∃ t', headers.foldlM (Snapshot.applyHeader config recover) t = .ok t' ∧ Alike keep s' t' := by
  induction headers generalizing s t with
  | nil =>
    cases ha
    exact ⟨t, rfl, h⟩
  | cons header headers ih =>
    obtain ⟨s1, hs, ha⟩ := Run.foldlM_cons_eq_ok ha
    obtain ⟨t1, ht, h1⟩ := h.applyHeader (hkeep header mem_cons_self) hs
    obtain ⟨t', ht', h'⟩ := ih h1 (fun x hx => hkeep x (mem_cons_of_mem header hx)) ha
    refine ⟨t', ?_, h'⟩
    rw [foldlM_cons, ht]
    exact ht'

end

end Alike

/-- A snapshot at another block; `apply` does not look at it. -/
def relabel (s : Snapshot) (number : UInt64) (hash : Hash) : Snapshot := { s with number, hash }

theorem Alike.eq_relabel {t : Snapshot} (h : Alike (fun _ => True) s t) :
    t = s.relabel t.number t.hash := by
  have hrecents : t.recents = s.recents := ext_lookup fun n => h.kept n trivial
  obtain ⟨number, hash, signers, recents, votes, tally⟩ := t
  cases h.signers
  cases h.votes
  cases h.tally
  cases hrecents
  rfl

theorem foldlM_relabel (h : headers.foldlM (applyHeader config recover) s = .ok s')
    (number : UInt64) (hash : Hash) :
    headers.foldlM (applyHeader config recover) (s.relabel number hash) =
      .ok (s'.relabel number hash) := by
  have halike : Alike (fun _ => True) s (s.relabel number hash) :=
    ⟨rfl, rfl, rfl, fun _ _ => rfl, fun _ hn => absurd trivial hn⟩
  obtain ⟨t, ht, hst⟩ := halike.foldlM headers (fun _ _ => trivial) h
  obtain ⟨hnumber, hhash⟩ := label_of_foldlM ht
  rw [ht, hst.eq_relabel, hnumber, hhash]
  rfl

/-! ## Lists of headers -/

theorem follows_append (number : UInt64) (headers headers' : List Header) :
    follows number (headers ++ headers') = true ↔ follows number headers = true ∧
      follows (number + UInt64.ofNat headers.length) headers' = true := by
  induction headers generalizing number with
  | nil => simp [follows]
  | cons header headers ih =>
    have hadd : number + UInt64.ofNat (headers.length + 1) =
        number + 1 + UInt64.ofNat headers.length := by
      rw [UInt64.ofNat_add, UInt64.add_assoc, UInt64.add_comm 1]
      rfl
    simp only [cons_append, follows, Bool.and_eq_true, decide_eq_true_eq, ih,
      length_cons, hadd]
    constructor
    · rintro ⟨hn, hfst, hsnd⟩
      exact ⟨⟨hn, hfst⟩, hn ▸ hsnd⟩
    · rintro ⟨⟨hn, hfst⟩, hsnd⟩
      exact ⟨hn, hfst, hn.symm ▸ hsnd⟩

variable [HashFns]

/-- The hash of the last header, or that of the snapshot. -/
def lastHash (s : Snapshot) (headers : List Header) : Hash :=
  (headers.getLast?.map Header.hash).getD s.hash

theorem apply_eq_ok :
    apply config recover s headers = .ok s' ↔ follows s.number headers = true ∧
      ∃ t, headers.foldlM (applyHeader config recover) s = .ok t ∧
        s' = t.relabel (s.number + UInt64.ofNat headers.length) (s.lastHash headers) := by
  unfold apply lastHash
  cases hlast : headers.getLast? with
  | none =>
    obtain rfl := getLast?_eq_none_iff.mp hlast
    constructor
    · rintro ⟨⟩
      exact ⟨rfl, s, rfl, by simp [relabel]⟩
    · rintro ⟨-, t, ht, rfl⟩
      cases ht
      simp [relabel]
  | some last =>
    cases hfollows : follows s.number headers with
    | false => simp
    | true =>
      cases hfold : headers.foldlM (applyHeader config recover) s with
      | error err => simp [bind, Except.bind]
      | ok t =>
        have hnumber := (label_of_foldlM hfold).1
        simp [bind, Except.bind, relabel, hnumber, eq_comm]

theorem apply_append_eq_ok {headers' : List Header} :
    apply config recover s (headers ++ headers') = .ok s' ↔
      ∃ t, apply config recover s headers = .ok t ∧
        apply config recover t headers' = .ok s' := by
  have hlast : ∀ t : Snapshot, t.hash = s.lastHash headers →
      s.lastHash (headers ++ headers') = t.lastHash headers' := by
    intro t ht
    unfold lastHash at ht ⊢
    rw [getLast?_append, ht]
    cases headers'.getLast? <;> rfl
  have hnumber : s.number + UInt64.ofNat (headers ++ headers').length =
      s.number + UInt64.ofNat headers.length + UInt64.ofNat headers'.length := by
    rw [length_append, UInt64.ofNat_add, UInt64.add_assoc]
  simp only [apply_eq_ok, follows_append, foldlM_append]
  constructor
  · rintro ⟨⟨hf, hf'⟩, u, hu, rfl⟩
    cases ht : headers.foldlM (applyHeader config recover) s with
    | error err => rw [ht] at hu; cases hu
    | ok t =>
      rw [ht] at hu
      refine ⟨_, ⟨hf, t, rfl, rfl⟩, hf', _, foldlM_relabel hu _ _, ?_⟩
      rw [hnumber, hlast (t.relabel _ (s.lastHash headers)) rfl]
      rfl
  · rintro ⟨_, ⟨hf, t, ht, rfl⟩, hf', v, hv, rfl⟩
    refine ⟨⟨hf, hf'⟩, v.relabel t.number t.hash, ?_, ?_⟩
    · rw [ht]
      exact foldlM_relabel hv t.number t.hash
    · rw [hnumber, hlast (t.relabel _ (s.lastHash headers)) rfl]
      rfl

/-- Headers that are accepted are also accepted with fewer recent signers. -/
theorem Alike.apply {keep : UInt64 → Prop} {t : Snapshot} (h : Alike keep s t)
    (hnumber : t.number = s.number) (hhash : t.hash = s.hash)
    (hkeep : ∀ header ∈ headers, keep header.numberU64)
    (ha : apply config recover s headers = .ok s') :
    ∃ t', Snapshot.apply config recover t headers = .ok t' ∧ Alike keep s' t' ∧
      t'.number = s'.number ∧ t'.hash = s'.hash := by
  obtain ⟨hfollows, u, hu, rfl⟩ := apply_eq_ok.mp ha
  obtain ⟨v, hv, huv⟩ := h.foldlM headers hkeep hu
  refine ⟨_, apply_eq_ok.mpr ⟨hnumber ▸ hfollows, v, hv, rfl⟩, ?_, ?_, ?_⟩
  · exact ⟨huv.signers, huv.votes, huv.tally, huv.kept, huv.dropped⟩
  · simp only [relabel, hnumber]
  · simp only [relabel, lastHash, hhash]

end Apply

end Snapshot

end Clique

end GethComments
