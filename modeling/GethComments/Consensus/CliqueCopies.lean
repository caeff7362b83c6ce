import GethComments.Consensus.CliqueVotes

/-!
# Snapshots in memory

The maps and the votes behind a `*Snapshot` are changed in place; `apply` does so in a copy.

* `applyHeader_eq`, `applyLoop_eq`: the loop computes that of the model, in its copy;
* `apply_composes`: lists of headers one after the other, and what is left of the receiver.
-/

namespace GethComments.Clique

open Snapshot

/-- A `*Snapshot`, with the places of its maps and of its votes. -/
structure SnapshotRef where
  number : UInt64
  hash : Hash
  signers : Nat
  recents : Nat
  votes : Nat
  tally : Nat

structure Memory where
  signers : Nat → Finset Address
  recents : Nat → Finmap fun _ : UInt64 => Address
  votes : Nat → List Vote
  tally : Nat → Finmap fun _ : Address => Tally
  /-- The first place that is not in use. -/
  next : Nat

/-- All of its places are in use. -/
def SnapshotRef.Within (r : SnapshotRef) (m : Memory) : Prop :=
  r.signers < m.next ∧ r.recents < m.next ∧ r.votes < m.next ∧ r.tally < m.next

namespace Memory

def load (m : Memory) (r : SnapshotRef) : Snapshot :=
  ⟨r.number, r.hash, m.signers r.signers, m.recents r.recents, m.votes r.votes, m.tally r.tally⟩

/-- The snapshot that a call gives, or its error. -/
def value (p : Memory × Except CliqueError SnapshotRef) : Except CliqueError Snapshot :=
  p.2.map p.1.load

def store (m : Memory) (r : SnapshotRef) (s : Snapshot) : Memory :=
  { m with
    signers := Function.update m.signers r.signers s.signers
    recents := Function.update m.recents r.recents s.recents
    votes := Function.update m.votes r.votes s.votes
    tally := Function.update m.tally r.tally s.tally }

def copy (m : Memory) (r : SnapshotRef) : Memory × SnapshotRef :=
  let cpy := { r with signers := m.next, recents := m.next, votes := m.next, tally := m.next }
  ({ m with next := m.next + 1 }.store cpy (m.load r), cpy)

section

variable (config : CliqueConfig) (recover : Header → Except CliqueError Address)

/-- One header of the loop, with what is written before it is refused. -/
def applyHeader (m : Memory) (snap : SnapshotRef) (header : Header) :
    Memory × Except CliqueError Unit :=
  let number := header.numberU64
  let m := m.store snap (((m.load snap).clearVotes config number).shiftRecents number)
  match (m.load snap).checkSigner recover header with
  | .error err => (m, .error err)
  | .ok signer =>
    let s := m.load snap
    let m := m.store snap ({ s with recents := s.recents.insert number signer }.discardVote signer
      header.coinbase)
    match voteOfNonce header.nonce with
    | .error err => (m, .error err)
    | .ok authorize =>
      let v := { signer, block := number, address := header.coinbase, authorize }
      (m.store snap (((m.load snap).addVote v).settle number header.coinbase), .ok ())

def applyLoop (snap : SnapshotRef) : Memory → List Header → Memory × Except CliqueError Unit
  | m, [] => (m, .ok ())
  | m, header :: headers =>
    match m.applyHeader config recover snap header with
    | (m, .error err) => (m, .error err)
    | (m, .ok ()) => applyLoop snap m headers

def apply [HashFns] (m : Memory) (s : SnapshotRef) (headers : List Header) :
    Memory × Except CliqueError SnapshotRef :=
  match headers.getLast? with
  | none => (m, .ok s)
  | some last =>
    if follows s.number headers = false then (m, .error .invalidVotingChain)
    else
      let (m, snap) := m.copy s
      match applyLoop config recover snap m headers with
      | (m, .error err) => (m, .error err)
      | (m, .ok ()) => (m, .ok { snap with
          number := snap.number + UInt64.ofNat headers.length, hash := last.hash })

end

variable {config : CliqueConfig} {recover : Header → Except CliqueError Address} {m : Memory}
  {r : SnapshotRef} {s : Snapshot}

theorem load_store (hnumber : s.number = r.number) (hhash : s.hash = r.hash) :
    (m.store r s).load r = s := by
  obtain ⟨number, hash, signers, recents, votes, tally⟩ := s
  cases hnumber
  cases hhash
  simp [load, store]

theorem store_store {s' : Snapshot} : (m.store r s).store r s' = m.store r s' := by
  simp [store]

/-- The loop body in memory is that of the model, and writes to the copy alone. -/
theorem applyHeader_eq (m : Memory) (r : SnapshotRef) (header : Header) :
    ∃ s, m.applyHeader config recover r header =
        (m.store r s, (Snapshot.applyHeader config recover (m.load r) header).map fun _ => ()) ∧
      ∀ t, Snapshot.applyHeader config recover (m.load r) header = .ok t → s = t := by
  unfold Memory.applyHeader Snapshot.applyHeader
  dsimp only [bind, Except.bind]
  have hl : ((m.load r).clearVotes config header.numberU64).number = r.number ∧
      ((m.load r).clearVotes config header.numberU64).hash = r.hash := by
    rw [clearVotes_eq]
    exact ⟨rfl, rfl⟩
  generalize (m.load r).clearVotes config header.numberU64 = s0 at hl ⊢
  rw [load_store (s := s0.shiftRecents header.numberU64) hl.1 hl.2]
  cases (s0.shiftRecents header.numberU64).checkSigner recover header with
  | error err => exact ⟨_, rfl, fun _ h => nomatch h⟩
  | ok signer =>
    dsimp only
    rw [store_store, load_store]
    · cases voteOfNonce header.nonce with
      | error err => exact ⟨_, rfl, fun _ h => nomatch h⟩
      | ok authorize =>
        dsimp only
        rw [store_store]
        exact ⟨_, rfl, fun t ht => Except.ok.inj ht⟩
    · rw [discardVote_eq]
      exact hl.1
    · rw [discardVote_eq]
      exact hl.2

variable (config recover) in
theorem applyLoop_eq (m : Memory) (r : SnapshotRef) (headers : List Header) :
    ∃ s, applyLoop config recover r m headers = (m.store r s,
        (headers.foldlM (Snapshot.applyHeader config recover) (m.load r)).map fun _ => ()) ∧
      ∀ t, headers.foldlM (Snapshot.applyHeader config recover) (m.load r) = .ok t → s = t := by
  induction headers generalizing m with
  | nil =>
    refine ⟨m.load r, ?_, fun t ht => Except.ok.inj ht⟩
    simp only [applyLoop, store, load, Function.update_eq_self]
    rfl
  | cons header headers ih =>
    obtain ⟨s, heq, hs⟩ := applyHeader_eq m r header
    rw [applyLoop, heq, List.foldlM_cons]
    cases ha : Snapshot.applyHeader config recover (m.load r) header with
    | error err => exact ⟨s, rfl, fun _ h => nomatch h⟩
    | ok t =>
      obtain rfl := hs t ha
      obtain ⟨-, -, -, -, hnumber, hhash, -⟩ := applyHeader_spec ha
      have hrest := ih (m.store r s)
      rw [load_store hnumber hhash] at hrest
      simp only [store_store] at hrest
      exact hrest

/-- Whatever is written to a copy, nothing that was in use changes. -/
theorem load_store_copy {r' : SnapshotRef} (h : r'.Within m) :
    ((m.copy r).1.store (m.copy r).2 s).load r' = m.load r' := by
  simp [copy, load, store, h.1.ne, h.2.1.ne, h.2.2.1.ne, h.2.2.2.ne]

variable [HashFns]

theorem apply_eq (m : Memory) (r : SnapshotRef) (headers : List Header) :
    value (m.apply config recover r headers) =
        Snapshot.apply config recover (m.load r) headers ∧
      (∀ r' : SnapshotRef, r'.Within m →
        (m.apply config recover r headers).1.load r' = m.load r') ∧
      (r.Within m → ∀ r', (m.apply config recover r headers).2 = .ok r' →
        r'.Within (m.apply config recover r headers).1) := by
  unfold Memory.apply Snapshot.apply value
  cases headers.getLast? with
  | none => exact ⟨rfl, fun _ _ => rfl, fun hr _ h => Except.ok.inj h ▸ hr⟩
  | some last =>
    dsimp only
    have hnumber : (m.load r).number = r.number := rfl
    rw [hnumber]
    split_ifs with hfollows
    · exact ⟨rfl, fun _ _ => rfl, fun _ _ h => nomatch h⟩
    · obtain ⟨s, heq, hs⟩ := applyLoop_eq config recover (m.copy r).1 (m.copy r).2 headers
      have hload : (m.copy r).1.load (m.copy r).2 = m.load r := load_store rfl rfl
      rw [hload] at heq hs
      rw [heq]
      cases hfold : headers.foldlM (Snapshot.applyHeader config recover) (m.load r) with
      | error err => exact ⟨rfl, fun _ h => load_store_copy h, fun _ _ h => nomatch h⟩
      | ok t =>
        obtain rfl := hs t hfold
        obtain ⟨hnumber, hhash⟩ := label_of_foldlM hfold
        have hcopy : ((m.copy r).1.store (m.copy r).2 s).load (m.copy r).2 = s :=
          load_store hnumber hhash
        refine ⟨?_, fun _ h => load_store_copy h, fun _ _ h => ?_⟩
        · change Except.ok { ((m.copy r).1.store (m.copy r).2 s).load (m.copy r).2 with
            number := (m.load r).number + UInt64.ofNat headers.length, hash := last.hash } = _
          rw [hcopy, ← hnumber]
          rfl
        · cases h
          have hnext := Nat.lt_succ_self m.next
          exact ⟨hnext, hnext, hnext, hnext⟩

/-- **Snapshots compose and are immutable.** Lists of headers can be applied one after the other,
the receiver stays as it was, also after a failure, and the result is a snapshot in use. -/
theorem apply_composes (m : Memory) (s : SnapshotRef) (hs : s.Within m) (h1 h2 : List Header) :
    (∀ t, value (m.apply config recover s (h1 ++ h2)) = .ok t ↔
      ∃ s1, (m.apply config recover s h1).2 = .ok s1 ∧
        value ((m.apply config recover s h1).1.apply config recover s1 h2) = .ok t) ∧
      ∀ headers, (m.apply config recover s headers).1.load s = m.load s ∧
        ∀ s', (m.apply config recover s headers).2 = .ok s' →
          s'.Within (m.apply config recover s headers).1 := by
  refine ⟨fun t => ?_, fun headers => (apply_eq m s headers).2.imp (fun h => h s hs) fun h => h hs⟩
  rw [(apply_eq m s _).1, apply_append_eq_ok, ← (apply_eq m s h1).1]
  simp only [(apply_eq _ _ h2).1]
  unfold value
  cases (m.apply config recover s h1).2 with
  | error err => simp [Except.map]
  | ok s1 => simp [Except.map]

omit [HashFns] in
/-- Two ballots for a third signer, applied one after the other. -/
theorem apply_composes_ballots : let _ := HashFns.plain
    let m : Memory := ⟨fun _ => {[1], [2]}, fun _ => ∅, fun _ => [], fun _ => ∅, 1⟩
    let s : SnapshotRef := ⟨0, [], 0, 0, 0, 0⟩
    let apply := fun m s h => apply ⟨15, 30000⟩ (fun h => .ok h.extra) m s h
    ∃ s1 t, (apply m s [ballot 1 [1] [3] nonceAuthVote]).2 = .ok s1 ∧
      value (apply (apply m s [ballot 1 [1] [3] nonceAuthVote]).1 s1
        [ballot 2 [2] [3] nonceAuthVote]) = .ok t ∧ [3] ∈ t.signers ∧
      (apply m s [ballot 1 [1] [3] nonceAuthVote]).1.load s = m.load s := by
  intro _ m s apply
  have hs : s.Within m := by simp [m, s, SnapshotRef.Within]
  have hwhole : (value (apply m s ([ballot 1 [1] [3] nonceAuthVote] ++
      [ballot 2 [2] [3] nonceAuthVote]))).map (fun t => decide ([3] ∈ t.signers)) = .ok true := by
    decide +kernel
  cases ht : value (apply m s ([ballot 1 [1] [3] nonceAuthVote] ++
      [ballot 2 [2] [3] nonceAuthVote])) with
  | error err =>
    rw [ht] at hwhole
    cases hwhole
  | ok t =>
    rw [ht] at hwhole
    obtain ⟨hcomposes, hframe⟩ := @apply_composes ⟨15, 30000⟩ (fun h => .ok h.extra) _ m s hs
      [ballot 1 [1] [3] nonceAuthVote] [ballot 2 [2] [3] nonceAuthVote]
    obtain ⟨s1, hs1, hvalue⟩ := (hcomposes t).mp ht
    exact ⟨s1, t, hs1, hvalue, of_decide_eq_true (Except.ok.inj hwhole), (hframe _).1⟩

end Memory

end GethComments.Clique
