import GethComments.Consensus.CliqueSeals

/-!
# Finding a snapshot

The snapshot of a block is rebuilt from the genesis, or from a snapshot in memory, on disk or of
a trusted checkpoint. `ValidChain` is a chain of valid headers with the snapshots that are
rebuilt from its genesis.

* `at_checkpoint`: a bare signer list is the snapshot of its checkpoint without recent signers;
* `at_apply`: headers carry over how far a snapshot shows its recent signers;
* `Knows.findBase`: where the walk back ends;
* `Knows.snapshot`: the snapshots an engine holds and returns are those of the chain;
* `exists_snapshot`: a snapshot is found where the headers are;
* `snapshot_independent`: so they are over whole runs with restarts and evictions.
-/

namespace GethComments.Clique

open Snapshot Finmap List

/-! ## Sizes -/

variable {number : UInt64} {address : Address} {k : Nat}

section Sizes

variable {config : CliqueConfig} {recover : Header → Except CliqueError Address}
  {s s' : Snapshot} {header : Header}

variable {v : Vote}

theorem mem_votes_clearVotes (h : v ∈ (s.clearVotes config number).votes) : v ∈ s.votes := by
  unfold clearVotes at h
  split_ifs at h
  · exact absurd h List.not_mem_nil
  · exact h

theorem mem_votes_discardVote {signer : Address} (h : v ∈ (s.discardVote signer address).votes) :
    v ∈ s.votes := by
  unfold discardVote at h
  split at h
  · exact h
  · exact mem_of_mem_eraseP h

theorem mem_votes_addVote {w : Vote} (h : w ∈ (s.addVote v).votes) : w ∈ s.votes ∨ w = v := by
  unfold addVote Snapshot.cast at h
  split_ifs at h
  · exact .inl h
  · cases hlook : s.tally.lookup v.address <;> rw [hlook] at h <;> simpa using h

theorem mem_votes_settle (h : v ∈ (s.settle number address).votes) : v ∈ s.votes := by
  unfold settle at h
  dsimp only at h
  split_ifs at h
  · exact (mem_filter.mp h).1
  · have hv := (mem_filter.mp h).1
    rw [dismiss_eq] at hv
    exact (mem_filter.mp hv).1
  · exact h

theorem mem_votes_applyHeader (ha : applyHeader config recover s header = .ok s')
    (h : v ∈ s'.votes) :
    v ∈ s.votes ∨ (recover header = .ok v.signer ∧ v.address = header.coinbase) := by
  obtain ⟨signer, authorize, hcheck, -, rfl⟩ := applyHeader_eq_ok ha
  obtain ⟨hrec, -, -⟩ := checkSigner_eq_ok hcheck
  rcases mem_votes_addVote (mem_votes_settle h) with h | rfl
  · have hsealed : v ∈ (s.sealed config header.numberU64 signer).votes := mem_votes_discardVote h
    exact .inl (mem_votes_clearVotes hsealed)
  · exact .inr ⟨hrec, rfl⟩

/-- The arrays of a header and its signer have the lengths of their types. -/
def HeaderSized (recover : Header → Except CliqueError Address) (header : Header) : Prop :=
  header.coinbase.length = addressLength ∧ ∀ a, recover header = .ok a → a.length = addressLength

theorem sized_applyHeader (h : s.Sized) (hexact : s'.Exact) (hheader : HeaderSized recover header)
    (ha : applyHeader config recover s header = .ok s') : s'.Sized := by
  obtain ⟨signer, -, -, -, -, hhash, hcases⟩ := applyHeader_spec ha
  have hvotes : ∀ v ∈ s'.votes, v.signer.length = addressLength ∧
      v.address.length = addressLength := by
    intro v hv
    rcases mem_votes_applyHeader ha hv with hold | ⟨hsigner, haddress⟩
    · exact h.votes v hold
    · exact ⟨hheader.2 _ hsigner, haddress ▸ hheader.1⟩
  refine ⟨hhash.symm ▸ h.hash, ?_, ?_, hvotes, ?_⟩
  · intro a hmem
    rcases hcases with ⟨-, hsame | henroll⟩ | ⟨-, hdismiss⟩
    · exact h.signers a (hsame ▸ hmem)
    · rcases Finset.mem_insert.mp (henroll ▸ hmem) with rfl | hmem
      · exact hheader.1
      · exact h.signers a hmem
    · exact h.signers a (Finset.mem_of_mem_erase (hdismiss ▸ hmem))
  · intro n a hn
    rcases lookup_applyHeader ha hn with ⟨-, hrec⟩ | hold
    · exact hheader.2 a hrec
    · exact h.recents n a hold
  · -- a tallied account has a vote
    intro a hkey
    obtain ⟨t, ht⟩ := mem_iff.mp (mem_keys.mp hkey)
    rw [hexact.tallied.recount a] at ht
    unfold recount at ht
    split_ifs at ht with hcount
    obtain ⟨v, hv, hva⟩ := countP_pos_iff.mp (Nat.pos_of_ne_zero hcount)
    have hva : v.address = a := by simpa using hva
    exact hva ▸ (hvotes v hv).2

theorem Snapshot.Alike.sized {keep : UInt64 → Prop} {t : Snapshot} (h : Alike keep s t)
    (hs : s.Sized) (hhash : t.hash = s.hash) : t.Sized := by
  refine ⟨hhash ▸ hs.hash, h.signers ▸ hs.signers, fun n a hn => ?_, h.votes ▸ hs.votes,
    h.tally ▸ hs.tally⟩
  by_cases hkeep : keep n
  · exact hs.recents n a ((h.kept n hkeep).symm.trans hn)
  · rw [h.dropped n hkeep] at hn
    cases hn

end Sizes

/-! ## Signer lists of checkpoints -/

theorem chunks_flatten (l : List Bytes) (hl : ∀ b ∈ l, b.length = k) (rest : Bytes) :
    ((List.range l.length).map fun i => ((l.flatten ++ rest).drop (i * k)).take k) = l := by
  induction l with
  | nil => rfl
  | cons b l ih =>
    have hb : b.length = k := hl b mem_cons_self
    have htail := ih fun x hx => hl x (mem_cons_of_mem b hx)
    rw [length_cons, range_succ_eq_map, map_cons, map_map]
    congr 1
    · simp [← hb]
    · refine Eq.trans (map_congr_left fun i _ => ?_) htail
      have hdrop : (i + 1) * k = b.length + i * k := by rw [hb, Nat.succ_mul, Nat.add_comm]
      simp only [Function.comp_apply, Nat.succ_eq_add_one, flatten_cons, hdrop,
        append_assoc, drop_length_add_append]

theorem length_flatten_of_forall (l : List Bytes) (hl : ∀ b ∈ l, b.length = k) :
    l.flatten.length = l.length * k := by
  induction l with
  | nil => simp
  | cons b l ih =>
    rw [flatten_cons, length_append, hl b mem_cons_self,
      ih fun x hx => hl x (mem_cons_of_mem b hx), length_cons, Nat.succ_mul, Nat.add_comm]

theorem checkpointSigners_eq {extra : Bytes} (signers : List Address)
    (hsigners : ∀ a ∈ signers, a.length = addressLength)
    (hlen : extraVanity + extraSeal ≤ extra.length)
    (hextra : (extra.take (extra.length - extraSeal)).drop extraVanity = signers.flatten) :
    checkpointSigners extra = .ok signers := by
  have hflat := length_flatten_of_forall signers hsigners
  rw [← hextra, length_drop, List.length_take] at hflat
  have hcount : (extra.length - extraVanity - extraSeal) / addressLength = signers.length := by
    have hbytes : extra.length - extraVanity - extraSeal = signers.length * addressLength := by
      omega
    rw [hbytes, Nat.mul_div_cancel _ (by decide)]
  have hsplit : extra.drop extraVanity =
      signers.flatten ++ extra.drop (extra.length - extraSeal) := by
    have htake := take_append_drop (extra.length - extraSeal) extra
    rw [← hextra]
    nth_rewrite 1 [← htake]
    rw [drop_append_of_le_length]
    rw [List.length_take]
    omega
  have hshort : ¬ extra.length + addressLength ≤ extraVanity + extraSeal := by
    have hpos : 0 < addressLength := by decide
    omega
  rw [checkpointSigners, if_neg hshort, hcount]
  refine congrArg Except.ok (Eq.trans (map_congr_left fun i _ => ?_)
    (chunks_flatten signers hsigners (extra.drop (extra.length - extraSeal))))
  rw [← hsplit, drop_drop]

theorem length_of_mem_checkpointSigners {extra : Bytes} {signers : List Address}
    (h : checkpointSigners extra = .ok signers) : ∀ a ∈ signers, a.length = addressLength := by
  unfold checkpointSigners at h
  split_ifs at h
  obtain rfl := Except.ok.inj h
  intro a ha
  obtain ⟨i, hi, rfl⟩ := mem_map.mp ha
  have hlt := mem_range.mp hi
  have hmul : (i + 1) * addressLength ≤ extra.length - extraVanity - extraSeal :=
    (Nat.le_div_iff_mul_le (by decide)).mp hlt
  rw [Nat.succ_mul] at hmul
  rw [List.length_take, length_drop]
  omega

section Checkpoint

variable {config : CliqueConfig} {recover : Header → Except CliqueError Address}
  {s s' : Snapshot} {header : Header}

theorem of_ite_error {ε α : Type} {p : Prop} [Decidable p] {e : ε} {x : Except ε α} {a : α}
    (h : (if p then .error e else x) = .ok a) : ¬ p ∧ x = .ok a := by
  split_ifs at h with hp
  exact ⟨hp, h⟩

theorem checkFields_checkpoint [HashFns] {chain : HeaderReader} {now : UInt64}
    (h : checkFields config chain now header = .ok ())
    (hepoch : header.numberU64 % config.epoch = 0) :
    header.coinbase = zeroAddress ∧ header.nonce = nonceDropVote ∧
      extraVanity + extraSeal ≤ header.extra.length := by
  obtain ⟨-, h⟩ := of_ite_error h
  obtain ⟨hcoinbase, h⟩ := of_ite_error h
  obtain ⟨-, h⟩ := of_ite_error h
  obtain ⟨hnonce, h⟩ := of_ite_error h
  obtain ⟨-, h⟩ := of_ite_error h
  obtain ⟨hlen, -⟩ := of_ite_error h
  exact ⟨not_not.mp fun hne => hcoinbase ⟨hepoch, hne⟩, not_not.mp fun hne => hnonce ⟨hepoch, hne⟩,
    Nat.not_lt.mp hlen⟩

theorem discardVote_of_nil (h : s.votes = []) (signer address : Address) :
    s.discardVote signer address = s := by
  rw [discardVote, h]
  rfl

theorem settle_of_none (h : s.tally.lookup address = none) : s.settle number address = s := by
  rw [settle, h]
  exact if_neg (Nat.not_lt_zero _)

theorem applyHeader_checkpoint (ha : applyHeader config recover s header = .ok s')
    (hepoch : header.numberU64 % config.epoch = 0) (hcoinbase : header.coinbase = zeroAddress)
    (hnonce : header.nonce = nonceDropVote) (hzero : zeroAddress ∉ s.signers) :
    s'.signers = s.signers ∧ s'.votes = [] ∧ s'.tally = ∅ := by
  obtain ⟨signer, authorize, -, hvote, rfl⟩ := applyHeader_eq_ok ha
  have hauthorize : authorize = false := by
    rw [hnonce] at hvote
    exact (Except.ok.inj hvote).symm
  have hsealed : s.sealed config header.numberU64 signer = { s with
        votes := []
        tally := ∅
        recents := (shift s.recents s.limit header.numberU64).insert header.numberU64 signer } := by
    rw [sealed, clearVotes, if_pos hepoch]
    rfl
  have hinvalid :
      (s.sealed config header.numberU64 signer).validVote zeroAddress false = false := by
    simp [hsealed, validVote, hzero]
  rw [hcoinbase, hauthorize, discardVote_of_nil (by rw [hsealed]),
    addVote_of_invalid _ _ hinvalid, settle_of_none (by rw [hsealed]; exact lookup_empty _),
    hsealed]
  exact ⟨rfl, rfl, rfl⟩

end Checkpoint

/-! ## Chains of valid headers -/

/-- A chain of valid headers from its genesis on, and the snapshots that are rebuilt from the
genesis. -/
structure ValidChain [HashFns] (config : CliqueConfig)
    (recover : Header → Except CliqueError Address) where
  header : Nat → Header
  snap : Nat → Snapshot
  top : Nat
  top_lt : top < 2 ^ 64
  number : ∀ i ≤ top, (header i).number = i
  parentHash : ∀ i < top, (header (i + 1)).parentHash = (header i).hash
  distinct : ∀ i ≤ top, ∀ j ≤ top, (header i).hash = (header j).hash → i = j
  sized : ∀ i ≤ top, (header i).hash.length = 32 ∧ HeaderSized recover (header i)
  genesis : ∃ signers, checkpointSigners (header 0).extra = .ok signers ∧
    snap 0 = newSnapshot 0 (header 0).hash signers
  fields : ∀ i < top, ∃ chain now, checkFields config chain now (header (i + 1)) = .ok ()
  checkpoint : ∀ i < top, checkCheckpoint config (snap i) (header (i + 1)) = .ok ()
  applied : ∀ i < top, apply config recover (snap i) [header (i + 1)] = .ok (snap (i + 1))

namespace ValidChain

variable [HashFns] {config : CliqueConfig} {recover : Header → Except CliqueError Address}
  (V : ValidChain config recover) {s : Snapshot} {b i m : Nat}

theorem toNat_ofNat (hi : i ≤ V.top) : (UInt64.ofNat i).toNat = i := by
  rw [UInt64.toNat_ofNat', Nat.mod_eq_of_lt (lt_of_le_of_lt hi V.top_lt)]

theorem numberU64 (hi : i ≤ V.top) : (V.header i).numberU64 = UInt64.ofNat i := by
  rw [Header.numberU64, V.number i hi]

theorem step (hi : i < V.top) :
    ∃ t, applyHeader config recover (V.snap i) (V.header (i + 1)) = .ok t ∧
      V.snap (i + 1) = t.relabel ((V.snap i).number + 1) (V.header (i + 1)).hash := by
  obtain ⟨-, t, ht, hsnap⟩ := apply_eq_ok.mp (V.applied i hi)
  obtain ⟨t', ha, ht⟩ := Run.foldlM_cons_eq_ok ht
  cases ht
  exact ⟨t, ha, hsnap⟩

theorem label (hi : i ≤ V.top) :
    (V.snap i).number = UInt64.ofNat i ∧ (V.snap i).hash = (V.header i).hash := by
  induction i with
  | zero =>
    obtain ⟨signers, -, hsnap⟩ := V.genesis
    rw [hsnap]
    exact ⟨rfl, rfl⟩
  | succ i ih =>
    obtain ⟨t, -, hsnap⟩ := V.step hi
    rw [hsnap, (ih (by omega)).1, UInt64.ofNat_add]
    exact ⟨rfl, rfl⟩

theorem exact (hi : i ≤ V.top) : (V.snap i).Exact := by
  induction i with
  | zero =>
    obtain ⟨signers, -, hsnap⟩ := V.genesis
    exact hsnap ▸ newSnapshot_exact _ _
  | succ i ih => exact apply_exact (ih (by omega)) (V.applied i hi)

theorem sized_snap (hi : i ≤ V.top) : (V.snap i).Sized := by
  induction i with
  | zero =>
    obtain ⟨signers, hsigners, hsnap⟩ := V.genesis
    rw [hsnap]
    refine ⟨(V.sized 0 hi).1, fun a ha => ?_, fun n a hn => ?_, fun v hv => ?_, fun a ha => ?_⟩
    · exact length_of_mem_checkpointSigners hsigners a (mem_toFinset.mp ha)
    · rw [newSnapshot, lookup_empty] at hn
      cases hn
    · exact absurd hv List.not_mem_nil
    · rw [newSnapshot, keys_empty] at ha
      exact absurd ha (Finset.notMem_empty a)
  | succ i ih =>
    obtain ⟨t, ht, hsnap⟩ := V.step hi
    have hexact : t.Exact := applyHeader_exact (V.exact (by omega)) ht
    have hsized := sized_applyHeader (ih (by omega)) hexact (V.sized (i + 1) hi).2 ht
    rw [hsnap]
    exact ⟨(V.sized (i + 1) hi).1, hsized.signers, hsized.recents, hsized.votes, hsized.tally⟩

theorem windowed (hi : i ≤ V.top) : Windowed i (V.snap i) := by
  induction i with
  | zero =>
    obtain ⟨signers, -, hsnap⟩ := V.genesis
    intro n a hn
    rw [hsnap, newSnapshot, lookup_empty] at hn
    cases hn
  | succ i ih =>
    obtain ⟨t, ht, hsnap⟩ := V.step hi
    have hnumber : (V.header (i + 1)).numberU64.toNat = i + 1 := by
      rw [V.numberU64 hi, V.toNat_ofNat hi]
    have hwin := (ih (by omega)).applyHeader hnumber ht
    rw [hsnap]
    exact hwin

/-! ## Snapshots that show less -/

/-- The snapshot of block `i` with the recent signers above block `b`. -/
structure At (b i : Nat) (s : Snapshot) : Prop where
  number : s.number = UInt64.ofNat i
  hash : s.hash = (V.header i).hash
  alike : Alike (fun n => b < n.toNat) (V.snap i) s

theorem At.sized (h : V.At b i s) (hi : i ≤ V.top) : s.Sized :=
  h.alike.sized (V.sized_snap hi) (h.hash.trans (V.label hi).2.symm)

/-- The `d` headers above block `m`. -/
def above (m d : Nat) : List Header := (range' (m + 1) d).map V.header

theorem above_succ (m d : Nat) : V.above m (d + 1) = V.header (m + 1) :: V.above (m + 1) d := by
  rw [above, range'_succ, map_cons]
  rfl

variable {d : Nat}

theorem apply_above (h : m + d ≤ V.top) :
    apply config recover (V.snap m) (V.above m d) = .ok (V.snap (m + d)) := by
  induction d generalizing m with
  | zero => rfl
  | succ d ih =>
    have hrest := ih (m := m + 1) (by omega)
    rw [above_succ, ← singleton_append]
    refine apply_append_eq_ok.mpr ⟨_, V.applied m (by omega), ?_⟩
    rwa [Nat.add_assoc, Nat.add_comm 1 d] at hrest

theorem at_apply (h : V.At b m s) (hb : b ≤ m) (hd : m + d ≤ V.top) :
    ∃ s', apply config recover s (V.above m d) = .ok s' ∧ V.At b (m + d) s' := by
  obtain ⟨hnumber, hhash⟩ := V.label (i := m) (by omega)
  have hkeep : ∀ x ∈ V.above m d, b < x.numberU64.toNat := by
    intro x hx
    obtain ⟨k, hk, rfl⟩ := mem_map.mp hx
    obtain ⟨hle, hlt⟩ := mem_range'_1.mp hk
    rw [V.numberU64 (by omega), V.toNat_ofNat (by omega)]
    omega
  obtain ⟨s', hs', halike, hnumber', hhash'⟩ := h.alike.apply (h.number.trans hnumber.symm)
    (h.hash.trans hhash.symm) hkeep (V.apply_above hd)
  obtain ⟨hn, hh⟩ := V.label hd
  exact ⟨s', hs', hnumber'.trans hn, hhash'.trans hh, halike⟩

theorem at_checkpoint {signers : List Address} (hb : b ≤ V.top)
    (hepoch : 0 < b → UInt64.ofNat b % config.epoch = 0)
    (hzero : 0 < b → zeroAddress ∉ (V.snap (b - 1)).signers)
    (hsigners : checkpointSigners (V.header b).extra = .ok signers) :
    V.At b b (newSnapshot (UInt64.ofNat b) (V.header b).hash signers) := by
  have hdropped : ∀ n, ¬ b < n.toNat → (newSnapshot (UInt64.ofNat b) (V.header b).hash
      signers).recents.lookup n = none := fun n _ => lookup_empty n
  have hkept : ∀ n, b < n.toNat → (newSnapshot (UInt64.ofNat b) (V.header b).hash
      signers).recents.lookup n = (V.snap b).recents.lookup n := by
    intro n hn
    cases hlook : (V.snap b).recents.lookup n with
    | none => exact lookup_empty n
    | some a => exact absurd (V.windowed hb n a hlook).1 (by omega)
  refine ⟨rfl, rfl, ?_⟩
  cases b with
  | zero =>
    obtain ⟨signers', hsigners', hsnap⟩ := V.genesis
    obtain rfl := Except.ok.inj (hsigners.symm.trans hsigners')
    rw [hsnap] at hkept ⊢
    exact ⟨rfl, rfl, rfl, hkept, hdropped⟩
  | succ j =>
    obtain ⟨t, ht, hsnap⟩ := V.step hb
    obtain ⟨chain, now, hfields⟩ := V.fields j hb
    have hepoch : (V.header (j + 1)).numberU64 % config.epoch = 0 := by
      rw [V.numberU64 hb]
      exact hepoch (Nat.succ_pos j)
    obtain ⟨hcoinbase, hnonce, hlen⟩ := checkFields_checkpoint hfields hepoch
    obtain ⟨hsame, hvotes, htally⟩ :=
      applyHeader_checkpoint ht hepoch hcoinbase hnonce (hzero (Nat.succ_pos j))
    have hlist : checkpointSigners (V.header (j + 1)).extra = .ok (V.snap j).sortedSigners := by
      have hchecked := V.checkpoint j hb
      unfold checkCheckpoint at hchecked
      split_ifs at hchecked with hmismatch
      refine checkpointSigners_eq _ (fun a ha => ?_) hlen ?_
      · exact (V.sized_snap (by omega)).signers a ((Finset.mem_sort _).mp ha)
      · exact not_not.mp fun hne => hmismatch ⟨hepoch, hne⟩
    obtain rfl := Except.ok.inj (hsigners.symm.trans hlist)
    refine ⟨?_, ?_, ?_, hkept, hdropped⟩
    · rw [hsnap]
      exact (Finset.sort_toFinset _ _).trans hsame.symm
    · rw [hsnap]
      exact hvotes.symm
    · rw [hsnap]
      exact htally.symm

/-! ## What an engine knows -/

/-- The snapshots that an engine holds for the blocks of the chain are theirs. Each shows its
recent signers above one of the trusted blocks `T`. -/
structure Knows (T : Set Nat) (c : Clique) : Prop where
  config : c.config = config
  signatures : c.signatures = recover
  memory : ∀ i ≤ V.top, ∀ s, c.recents (V.header i).hash = some s → ∃ b ∈ T, b ≤ i ∧ V.At b i s
  disk : ∀ i ≤ V.top, ∀ s, c.loadSnapshot (V.header i).hash = some s → ∃ b ∈ T, b ≤ i ∧ V.At b i s

/-- A reader has no other headers under the hashes of the chain, its canonical headers at the
genesis and at the epoch checkpoints are no others, and the checkpoints that it makes an engine
trust are among `T`. -/
structure Reads (T : Set Nat) (chain : HeaderReader) : Prop where
  byHash : ∀ i ≤ V.top, ∀ h, chain.getHeader (V.header i).hash (UInt64.ofNat i) = some h →
    h = V.header i
  byNumber : ∀ i ≤ V.top, (0 < i → UInt64.ofNat i % config.epoch = 0) →
    ∀ h, chain.getHeaderByNumber (UInt64.ofNat i) = some h → h = V.header i
  trusted : ∀ b ≤ V.top, 0 < b → UInt64.ofNat b % config.epoch = 0 →
    (b + immutabilityThreshold < V.top ∨
      chain.getHeaderByNumber (UInt64.ofNat b - 1) = none) → b ∈ T

/-- The genesis is trusted, and a checkpoint only if the zero address is not on its list. -/
structure Trusts (T : Set Nat) : Prop where
  genesis : 0 ∈ T
  zero : ∀ b ∈ T, 0 < b → b ≤ V.top → zeroAddress ∉ (V.snap (b - 1)).signers

variable {V} {T : Set Nat} {c c' : Clique} {chain : HeaderReader}

theorem Knows.remember (h : V.Knows T c) (hb : b ∈ T) (hbi : b ≤ i) (hi : i ≤ V.top)
    (hat : V.At b i s) :
    V.Knows T { c with recents := Function.update c.recents s.hash (some s) } := by
  refine ⟨h.config, h.signatures, fun j hj t ht => ?_, h.disk⟩
  by_cases heq : (V.header j).hash = s.hash
  · obtain rfl := V.distinct j hj i hi (heq.trans hat.hash)
    rw [heq] at ht
    simp only [Function.update_self, Option.some.injEq] at ht
    exact ⟨b, hb, hbi, ht ▸ hat⟩
  · simp only [Function.update_of_ne heq] at ht
    exact h.memory j hj t ht

theorem Knows.store (h : V.Knows T c) (hb : b ∈ T) (hbi : b ≤ i) (hi : i ≤ V.top)
    (hat : V.At b i s) : V.Knows T (c.store s) := by
  refine ⟨h.config, h.signatures, h.memory, fun j hj t ht => ?_⟩
  by_cases heq : (V.header j).hash = s.hash
  · obtain rfl := V.distinct j hj i hi (heq.trans hat.hash)
    have hread : (c.store s).loadSnapshot (V.header j).hash = some s := by
      rw [heq, loadSnapshot, Clique.store]
      simp only [Function.update_self, Option.bind_some]
      exact unmarshal_marshal (hat.sized V hi)
    obtain rfl := Option.some.inj (hread.symm.trans ht)
    exact ⟨b, hb, hbi, hat⟩
  · have hsame : (c.store s).loadSnapshot (V.header j).hash = c.loadSnapshot (V.header j).hash := by
      rw [loadSnapshot, loadSnapshot, Clique.store]
      simp only [Function.update_of_ne heq]
    exact h.disk j hj t (hsame.symm.trans ht)

/-! ## The walk back -/

theorem Knows.base (h : V.Knows T c) (hT : V.Trusts T) (hreads : V.Reads T chain) {gathered : Nat}
    (hk : k + gathered ≤ V.top)
    (hbase : c.base chain k (V.header k).hash gathered = some (.ok (c', s))) :
    V.Knows T c' ∧ ∃ b ∈ T, b ≤ k ∧ V.At b k s := by
  rcases base_eq_ok hbase with ⟨rfl, hmem | ⟨-, hdisk⟩⟩ |
    ⟨rfl, htrust, checkpoint, signers, hget, hsigners, rfl⟩
  · exact ⟨h, h.memory k (by omega) s hmem⟩
  · exact ⟨h, h.disk k (by omega) s hdisk⟩
  · simp only [trusts, Bool.or_eq_true, Bool.and_eq_true, decide_eq_true_eq, h.config,
      Option.isNone_iff_eq_none] at htrust
    have hepoch : 0 < k → UInt64.ofNat k % config.epoch = 0 := by
      intro hpos
      rcases htrust with hzero | ⟨hepoch, -⟩
      · omega
      · exact hepoch
    obtain rfl := hreads.byNumber k (by omega) hepoch checkpoint hget
    have hk' : k ∈ T := by
      rcases htrust with rfl | ⟨hepoch, hwhy⟩
      · exact hT.genesis
      · rcases Nat.eq_zero_or_pos k with rfl | hpos
        · exact hT.genesis
        · exact hreads.trusted k (by omega) hpos hepoch (hwhy.imp_left fun hlt => by omega)
    have hat := V.at_checkpoint (by omega) hepoch (fun hpos => hT.zero k hk' hpos (by omega))
      hsigners
    exact ⟨h.store hk' le_rfl (by omega) hat, k, hk', le_rfl, hat⟩

theorem gather_spec (hreads : V.Reads T chain) (hk : k ≤ V.top) {parents parents' : List Header}
    {x : Header} (hparents : ∀ y ∈ parents, ∃ j ≤ V.top, y = V.header j)
    (h : gather chain (UInt64.ofNat k) (V.header k).hash parents = .ok (x, parents')) :
    x = V.header k ∧ ∀ y ∈ parents', ∃ j ≤ V.top, y = V.header j := by
  unfold gather at h
  cases hlast : parents.getLast? with
  | none =>
    rw [hlast] at h
    dsimp only at h
    split at h
    · cases h
    · rename_i y hget
      cases h
      exact ⟨hreads.byHash k hk x hget, fun y hy => absurd hy List.not_mem_nil⟩
  | some y =>
    rw [hlast] at h
    dsimp only at h
    obtain ⟨hsame, h⟩ := of_ite_error h
    cases h
    obtain ⟨j, hj, rfl⟩ := hparents x (mem_of_getLast? hlast)
    have hhash : (V.header j).hash = (V.header k).hash := not_not.mp fun hne => hsame (.inl hne)
    obtain rfl := V.distinct j hj k hk hhash
    exact ⟨rfl, fun y hy => hparents y (dropLast_subset parents hy)⟩

section

variable (h : V.Knows T c) (hT : V.Trusts T) (hreads : V.Reads T chain)
include h hT hreads

theorem Knows.findBase (k : Nat)
    (hk : k + d ≤ V.top) {parents above : List Header}
    (hparents : ∀ y ∈ parents, ∃ j ≤ V.top, y = V.header j)
    (hfind : c.findBase chain k (V.header k).hash parents (V.above k d) = .ok (c', s, above)) :
    V.Knows T c' ∧ ∃ b ∈ T, ∃ m, b ≤ m ∧ m ≤ k ∧ V.At b m s ∧ above = V.above m (k + d - m) := by
  have hlen : ∀ k d, (V.above k d).length = d := fun k d => by simp [ValidChain.above]
  induction k using Nat.strong_induction_on generalizing d parents with
  | _ k ih =>
    rcases findBase_cases hfind with ⟨hbase, rfl⟩ | ⟨k, x, parents', rfl, -, hgather, hrest⟩
    · rw [hlen] at hbase
      obtain ⟨hknows, b, hb, hle, hat⟩ := h.base hT hreads hk hbase
      refine ⟨hknows, b, hb, k, hle, le_rfl, hat, ?_⟩
      rw [Nat.add_sub_cancel_left]
    · obtain ⟨rfl, hparents'⟩ := gather_spec hreads (by omega) hparents hgather
      rw [V.parentHash k (by omega), ← V.above_succ] at hrest
      obtain ⟨hknows, b, hb, m, hbm, hmk, hat, habove⟩ :=
        ih k k.lt_succ_self (by omega) hparents' hrest
      refine ⟨hknows, b, hb, m, hbm, by omega, hat, ?_⟩
      rw [habove]
      congr 1
      omega

theorem Knows.rebuild
    (hi : i ≤ V.top) {parents above : List Header}
    (hparents : ∀ y ∈ parents, ∃ j ≤ V.top, y = V.header j)
    (hfind : c.findBase chain i (V.header i).hash parents [] = .ok (c', s, above)) :
    V.Knows T c' ∧ ∃ b ∈ T, b ≤ i ∧ ∃ s', apply c'.config c'.signatures s above = .ok s' ∧
      V.At b i s' := by
  obtain ⟨hknows, b, hb, m, hbm, hmi, hat, rfl⟩ :=
    h.findBase hT hreads i (d := 0) hi hparents hfind
  obtain ⟨s', hs', hat'⟩ := V.at_apply hat hbm (d := i + 0 - m) (by omega)
  rw [show m + (i + 0 - m) = i by omega] at hat'
  rw [hknows.config, hknows.signatures]
  exact ⟨hknows, b, hb, by omega, s', hs', hat'⟩

/-- **The snapshots that an engine returns and keeps are those of the chain.** -/
theorem Knows.snapshot
    (hi : i ≤ V.top) {parents : List Header}
    (hparents : ∀ y ∈ parents, ∃ j ≤ V.top, y = V.header j) :
    V.Knows T (c.snapshot chain (UInt64.ofNat i) (V.header i).hash parents).2 ∧
      ∀ s, (c.snapshot chain (UInt64.ofNat i) (V.header i).hash parents).1 = .ok s →
        ∃ b ∈ T, b ≤ i ∧ V.At b i s := by
  unfold Clique.snapshot
  rw [V.toNat_ofNat hi]
  cases hfind : c.findBase chain i (V.header i).hash parents [] with
  | error err => exact ⟨h, fun s hs => absurd hs (by simp)⟩
  | ok r =>
    obtain ⟨c', base, above⟩ := r
    obtain ⟨hknows, b, hb, hbi, s', happly, hat⟩ := h.rebuild hT hreads hi hparents hfind
    have hknows' := hknows.remember hb hbi hi hat
    dsimp only
    rw [happly]
    dsimp only
    constructor
    · split_ifs
      · exact hknows'.store hb hbi hi hat
      · exact hknows'
    · intro s hs
      obtain rfl := Except.ok.inj hs
      exact ⟨b, hb, hbi, hat⟩

end

/-! ## Where the walk ends -/

variable (V) in
/-- The headers are found down to a block that is trusted: the latest ones among the explicit
parents, the others by the reader. -/
def Finds (chain : HeaderReader) (i : Nat) (parents : List Header) : Prop :=
  ∃ b ≤ i, (b = 0 ∨ (UInt64.ofNat b % config.epoch = 0 ∧
      chain.getHeaderByNumber (UInt64.ofNat b - 1) = none)) ∧
    chain.getHeaderByNumber (UInt64.ofNat b) = some (V.header b) ∧
    ∃ j ≤ i, parents = V.above j (i - j) ∧ ∀ k, b < k → k ≤ j →
      chain.getHeader (V.header k).hash (UInt64.ofNat k) = some (V.header k)

theorem Finds.parents {parents : List Header} (h : V.Finds chain i parents) (hi : i ≤ V.top) :
    ∀ y ∈ parents, ∃ j ≤ V.top, y = V.header j := by
  obtain ⟨b, -, -, -, j, hj, rfl, -⟩ := h
  intro y hy
  obtain ⟨k, hk, rfl⟩ := mem_map.mp hy
  obtain ⟨-, hlt⟩ := mem_range'_1.mp hk
  exact ⟨k, by omega, rfl⟩

theorem Finds.gather {parents : List Header} (h : V.Finds chain (k + 1) parents)
    (htop : ¬ (UInt64.ofNat (k + 1) % config.epoch = 0 ∧
      chain.getHeaderByNumber (UInt64.ofNat (k + 1) - 1) = none ∧
      (chain.getHeaderByNumber (UInt64.ofNat (k + 1))).isSome))
    (hk : k + 1 ≤ V.top) :
    ∃ parents', gather chain (UInt64.ofNat (k + 1)) (V.header (k + 1)).hash parents =
      .ok (V.header (k + 1), parents') ∧ V.Finds chain k parents' := by
  obtain ⟨b, hb, htrust, hget, j, hj, rfl, hread⟩ := h
  have hbk : b ≤ k := by
    rcases Nat.lt_or_ge k b with hlt | hle
    · obtain rfl : b = k + 1 := by omega
      rcases htrust with hzero | ⟨hepoch, hnone⟩
      · omega
      · exact absurd ⟨hepoch, hnone, by rw [hget]; rfl⟩ htop
    · exact hle
  rcases Nat.lt_or_ge k j with hlt | hle
  · obtain rfl : j = k + 1 := by omega
    have hempty : V.above (k + 1) (k + 1 - (k + 1)) = [] := by simp [above]
    refine ⟨[], ?_, b, hbk, htrust, hget, k, le_rfl, by simp [above], fun n hn hnk => ?_⟩
    · rw [hempty, Clique.gather]
      dsimp only [getLast?_nil]
      rw [hread (k + 1) (by omega) le_rfl]
    · exact hread n hn (by omega)
  · have hlast : V.above j (k + 1 - j) = V.above j (k - j) ++ [V.header (k + 1)] := by
      have hsub : k + 1 - j = k - j + 1 := by omega
      have hend : j + 1 + (k - j) = k + 1 := by omega
      rw [hsub, above, range'_1_concat, map_append, hend]
      rfl
    refine ⟨V.above j (k - j), ?_, b, hbk, htrust, hget, j, hle, rfl, hread⟩
    rw [Clique.gather, hlast, getLast?_concat]
    dsimp only
    rw [if_neg (by simp [V.numberU64 hk]), dropLast_concat]

theorem checkpointSigners_ne_error (hk : k ≤ V.top)
    (hepoch : 0 < k → UInt64.ofNat k % config.epoch = 0) (err : CliqueError) :
    checkpointSigners (V.header k).extra ≠ .error err := by
  cases k with
  | zero =>
    obtain ⟨signers, hsigners, -⟩ := V.genesis
    rw [hsigners]
    simp
  | succ k =>
    obtain ⟨chain, now, hfields⟩ := V.fields k hk
    have hepoch : (V.header (k + 1)).numberU64 % config.epoch = 0 := by
      rw [V.numberU64 hk]
      exact hepoch (Nat.succ_pos k)
    obtain ⟨-, -, hlen⟩ := checkFields_checkpoint hfields hepoch
    have hpos : 0 < addressLength := by decide
    rw [checkpointSigners, if_neg (by omega)]
    simp

theorem base_ne_error (hconfig : c.config = config) (hreads : V.Reads T chain) {gathered : Nat}
    (hk : k ≤ V.top) (err : CliqueError) :
    c.base chain k (V.header k).hash gathered ≠ some (.error err) := by
  intro hbase
  obtain ⟨htrust, checkpoint, hget, herr⟩ := base_eq_error hbase
  have hepoch : 0 < k → UInt64.ofNat k % config.epoch = 0 := by
    intro hpos
    simp only [trusts, Bool.or_eq_true, Bool.and_eq_true, decide_eq_true_eq, hconfig] at htrust
    rcases htrust with hzero | ⟨hepoch, -⟩
    · omega
    · exact hepoch
  obtain rfl := hreads.byNumber k hk hepoch checkpoint hget
  exact checkpointSigners_ne_error hk hepoch err herr

theorem exists_findBase (hconfig : c.config = config) (hreads : V.Reads T chain) (k : Nat)
    (hk : k ≤ V.top) (headers : List Header) {parents : List Header}
    (hfinds : V.Finds chain k parents) :
    ∃ r, c.findBase chain k (V.header k).hash parents headers = .ok r := by
  induction k using Nat.strong_induction_on generalizing parents headers with
  | _ k ih =>
    unfold findBase
    cases hbase : c.base chain k (V.header k).hash headers.length with
    | some r =>
      cases r with
      | error err => exact absurd hbase (base_ne_error hconfig hreads hk err)
      | ok r => exact ⟨_, rfl⟩
    | none =>
      cases k with
      | zero =>
        obtain ⟨b, hb, -, hget, -⟩ := hfinds
        obtain rfl : b = 0 := by omega
        have hnone := base_eq_none hbase (by simp [trusts])
        rw [hget] at hnone
        cases hnone
      | succ k =>
        obtain ⟨parents', hgather, hfinds'⟩ := hfinds.gather (by
          rintro ⟨hepoch, hnone, hsome⟩
          rw [base_eq_none hbase (trusts_of_missing (hconfig ▸ hepoch) hnone _)] at hsome
          cases hsome) hk
        obtain ⟨r, hr⟩ := ih k k.lt_succ_self (by omega) (V.header (k + 1) :: headers) hfinds'
        refine ⟨r, ?_⟩
        rw [hgather]
        dsimp only
        rw [V.parentHash k (by omega)]
        exact hr

theorem exists_snapshot (h : V.Knows T c) (hT : V.Trusts T) (hreads : V.Reads T chain)
    (hi : i ≤ V.top) {parents : List Header} (hfinds : V.Finds chain i parents) :
    ∃ s, (c.snapshot chain (UInt64.ofNat i) (V.header i).hash parents).1 = .ok s := by
  obtain ⟨⟨c', base, above⟩, hfind⟩ := exists_findBase h.config hreads i hi [] hfinds
  obtain ⟨-, b, -, -, s', happly, -⟩ := h.rebuild hT hreads hi (hfinds.parents hi) hfind
  refine ⟨s', ?_⟩
  rw [Clique.snapshot, V.toNat_ofNat hi, hfind]
  dsimp only
  rw [happly]

end ValidChain

/-! ## Runs of an engine -/

/-- What happens to an engine: calls of `snapshot`, snapshots that leave the memory, and
restarts, after which only the disk is left. -/
inductive EngineOp where
  | snapshot (chain : HeaderReader) (number : UInt64) (hash : Hash) (parents : List Header)
  | evict (hashes : List Hash)
  | restart

variable [HashFns]

def engineStep (c : Clique) : EngineOp → Clique
  | .snapshot chain n h parents => (c.snapshot chain n h parents).2
  | .evict hs => { c with recents := fun h => if h ∈ hs then none else c.recents h }
  | .restart => { c with recents := fun _ => none }

namespace ValidChain

variable {config : CliqueConfig} {recover : Header → Except CliqueError Address}
  (V : ValidChain config recover) {T : Set Nat}

/-- A call is for a block of the chain, with parents from the chain. -/
def Admits (T : Set Nat) : EngineOp → Prop
  | .snapshot chain n h parents => V.Reads T chain ∧ ∃ i ≤ V.top, n = UInt64.ofNat i ∧
      h = (V.header i).hash ∧ ∀ y ∈ parents, ∃ j ≤ V.top, y = V.header j
  | _ => True

variable {V}

theorem Knows.engineStep {c : Clique} {op : EngineOp} (h : V.Knows T c) (hT : V.Trusts T)
    (hop : V.Admits T op) : V.Knows T (c.engineStep op) := by
  cases op with
  | snapshot chain n hash parents =>
    obtain ⟨hreads, i, hi, rfl, rfl, hparents⟩ := hop
    exact (h.snapshot hT hreads hi hparents).1
  | evict hs =>
    refine ⟨h.config, h.signatures, fun i hi s hmem => ?_, h.disk⟩
    simp only [Clique.engineStep] at hmem
    split_ifs at hmem
    exact h.memory i hi s hmem
  | restart =>
    refine ⟨h.config, h.signatures, fun i hi s hmem => ?_, h.disk⟩
    cases hmem

theorem Knows.run {c : Clique} (h : V.Knows T c) (hT : V.Trusts T) (ops : List EngineOp)
    (hops : ∀ op ∈ ops, V.Admits T op) : V.Knows T (ops.foldl Clique.engineStep c) := by
  induction ops generalizing c with
  | nil => exact h
  | cons op ops ih =>
    have hop := h.engineStep hT (hops op mem_cons_self)
    exact ih hop fun x hx => hops x (mem_cons_of_mem op hx)

theorem lookup_zero {i : Nat} (hi : i ≤ V.top) : (V.snap i).recents.lookup 0 = none := by
  induction i with
  | zero =>
    obtain ⟨signers, -, hsnap⟩ := V.genesis
    rw [hsnap]
    exact lookup_empty 0
  | succ i ih =>
    obtain ⟨t, ht, hsnap⟩ := V.step hi
    have hnone : ∀ a, t.recents.lookup 0 ≠ some a := by
      intro a ha
      rcases lookup_applyHeader ht ha with ⟨hnumber, -⟩ | hold
      · have htoNat := congrArg UInt64.toNat hnumber
        rw [V.numberU64 hi, V.toNat_ofNat hi] at htoNat
        exact Nat.succ_ne_zero i htoNat.symm
      · rw [ih (by omega)] at hold
        cases hold
    rw [hsnap]
    exact Option.eq_none_iff_forall_ne_some.mpr hnone

theorem At.eq {i : Nat} {s : Snapshot} (h : V.At 0 i s) (hi : i ≤ V.top) : s = V.snap i := by
  obtain ⟨hnumber, hhash⟩ := V.label hi
  have hall : Alike (fun _ => True) (V.snap i) s := by
    refine ⟨h.alike.signers, h.alike.votes, h.alike.tally, fun n _ => ?_,
      fun n hn => absurd trivial hn⟩
    by_cases hn : 0 < n.toNat
    · exact h.alike.kept n hn
    · obtain rfl : n = 0 := UInt64.toNat_inj.mp (Nat.eq_zero_of_not_pos hn)
      rw [h.alike.dropped 0 hn, lookup_zero hi]
  rw [hall.eq_relabel, h.number, h.hash, ← hnumber, ← hhash]
  rfl

/-- **However a snapshot is found.** Its recent signers are those above a block `b` that is the
genesis or a trusted checkpoint; with the genesis it is the one rebuilt from there. -/
theorem snapshot_independent (V : ValidChain config recover) (T : Set Nat) (hT : V.Trusts T)
    (c : Clique) (hconfig : c.config = config) (hsignatures : c.signatures = recover)
    (hmemory : ∀ h, c.recents h = none) (hdisk : ∀ h, c.db h = none) (ops : List EngineOp)
    (hops : ∀ op ∈ ops, V.Admits T op) (chain : HeaderReader) (hreads : V.Reads T chain)
    (i : Nat) (hi : i ≤ V.top) (parents : List Header) (hfinds : V.Finds chain i parents) :
    ∃ s, ((ops.foldl Clique.engineStep c).snapshot chain (UInt64.ofNat i) (V.header i).hash
        parents).1 = .ok s ∧
      s.signers = (V.snap i).signers ∧ s.votes = (V.snap i).votes ∧ s.tally = (V.snap i).tally ∧
      ∃ b ∈ T, b ≤ i ∧ (∀ n, s.recents.lookup n =
          if b < n.toNat then (V.snap i).recents.lookup n else none) ∧
        (b = 0 → s = V.snap i) := by
  have hfresh : V.Knows T c := by
    refine ⟨hconfig, hsignatures, fun j hj s hs => ?_, fun j hj s hs => ?_⟩
    · rw [hmemory] at hs
      cases hs
    · rw [loadSnapshot, hdisk] at hs
      cases hs
  have hknows := hfresh.run hT ops hops
  obtain ⟨s, hs⟩ := exists_snapshot hknows hT hreads hi hfinds
  obtain ⟨b, hb, hbi, hat⟩ := (hknows.snapshot hT hreads hi (hfinds.parents hi)).2 s hs
  have hrecents : ∀ n, s.recents.lookup n =
      if b < n.toNat then (V.snap i).recents.lookup n else none := by
    intro n
    split_ifs with hn
    · exact hat.alike.kept n hn
    · exact hat.alike.dropped n hn
  refine ⟨s, hs, hat.alike.signers, hat.alike.votes, hat.alike.tally, b, hb, hbi, hrecents, ?_⟩
  rintro rfl
  exact hat.eq hi

end ValidChain

end GethComments.Clique

namespace GethComments.Clique

open Snapshot

/-! ## A checkpoint after two blocks -/

/-- Hashes of the length of their type, to run the model with. -/
abbrev checksums : HashFns where
  keccak256 b :=
    List.replicate 24 0 ++ (List.range 8).map fun i =>
      UInt8.ofNat (b.foldl (fun h x => (h * 257 + x.toNat) % 2 ^ 64) 1 / 256 ^ i)
  sum256 := Sha256.sum256

attribute [local instance] checksums

def signerA : Address := List.replicate 20 1

def signerB : Address := List.replicate 20 2

/-- The seal of a header is the address of its signer. -/
def sealOf (h : Header) : Except CliqueError Address :=
  .ok ((h.extra.drop (h.extra.length - extraSeal)).take addressLength)

def shortEpoch : CliqueConfig := ⟨15, 2⟩

def withSigners (i : Nat) : Bytes := if i % 2 = 0 then signerA ++ signerB else []

/-- Every second block is a checkpoint; two signers seal in turn. -/
def turnHeader : Nat → Header
  | 0 => { (default : Header) with
      coinbase := zeroAddress
      extra := List.replicate 32 0 ++ withSigners 0 ++ List.replicate 97 0 }
  | i + 1 => { (default : Header) with
      number := i + 1
      parentHash := (turnHeader i).hash
      uncleHash := HashFns.keccak256 (Rlp.encodeList [])
      coinbase := zeroAddress
      nonce := nonceDropVote
      mixDigest := List.replicate 32 0
      difficulty := 1
      extra := List.replicate 32 0 ++ withSigners (i + 1) ++
        (if i % 2 = 0 then signerA else signerB) ++ List.replicate 77 0 }

def turnSnap : Nat → Snapshot
  | 0 => newSnapshot 0 (turnHeader 0).hash [signerA, signerB]
  | i + 1 => (apply shortEpoch sealOf (turnSnap i) [turnHeader (i + 1)]).toOption.getD (turnSnap i)

theorem turns_linked : (∀ i ≤ 3, ∀ j ≤ 3, (turnHeader i).hash = (turnHeader j).hash → i = j) ∧
      (∀ i ≤ 3, (turnHeader i).number = i ∧ (turnHeader i).hash.length = 32 ∧
        (turnHeader i).coinbase.length = addressLength ∧
        addressLength ≤ ((turnHeader i).extra.drop
          ((turnHeader i).extra.length - extraSeal)).length) ∧
      ∀ i < 3, (turnHeader (i + 1)).parentHash = (turnHeader i).hash := by
  decide +kernel

theorem turns_accepted :
    (∀ i < 3, checkFields shortEpoch noHeaders 0 (turnHeader (i + 1)) = .ok ()) ∧
      (∀ i < 3, apply shortEpoch sealOf (turnSnap i) [turnHeader (i + 1)] =
        .ok (turnSnap (i + 1))) ∧
      checkpointSigners (turnHeader 0).extra = .ok [signerA, signerB] ∧
      (turnSnap 1).signers = [signerA, signerB].toFinset ∧
      (∀ i < 3, i ≠ 1 → (turnHeader (i + 1)).numberU64 % shortEpoch.epoch ≠ 0) ∧
      ((turnHeader 2).extra.take ((turnHeader 2).extra.length - extraSeal)).drop extraVanity =
        [signerA, signerB].flatten := by
  decide +kernel

theorem turnSnap_zero : turnSnap 0 = newSnapshot 0 (turnHeader 0).hash [signerA, signerB] := rfl

attribute [local irreducible] turnHeader turnSnap

theorem turns_checkpoint (i : Nat) (hi : i < 3) :
    checkCheckpoint shortEpoch (turnSnap i) (turnHeader (i + 1)) = .ok () := by
  obtain ⟨-, -, -, hsigners, hepoch, hextra⟩ := turns_accepted
  by_cases h1 : i = 1
  · have hsorted : (turnSnap 1).sortedSigners = [signerA, signerB] := by
      rw [sortedSigners, hsigners]
      exact (List.toFinset_sort (· ≤ ·) (by decide)).mpr (by decide)
    subst h1
    rw [checkCheckpoint, if_neg]
    rintro ⟨-, hne⟩
    rw [hsorted] at hne
    exact hne hextra
  · rw [checkCheckpoint, if_neg]
    rintro ⟨hzero, -⟩
    exact hepoch i hi h1 hzero

/-- Three blocks by two signers. -/
def turns : ValidChain shortEpoch sealOf where
  header := turnHeader
  snap := turnSnap
  top := 3
  top_lt := by decide
  number i hi := (turns_linked.2.1 i hi).1
  parentHash := turns_linked.2.2
  distinct := turns_linked.1
  sized i hi := by
    obtain ⟨-, hhash, hcoinbase, hseal⟩ := turns_linked.2.1 i hi
    refine ⟨hhash, hcoinbase, fun a ha => ?_⟩
    obtain rfl := Except.ok.inj ha
    rw [List.length_take]
    omega
  genesis := ⟨[signerA, signerB], turns_accepted.2.2.1, turnSnap_zero⟩
  fields i hi := ⟨noHeaders, 0, turns_accepted.1 i hi⟩
  checkpoint := turns_checkpoint
  applied := turns_accepted.2.1

/-- A node that has the headers from some number on. -/
def headersFrom (low : Nat) : HeaderReader where
  eip150Block := none
  eip150Hash := []
  getHeader h n :=
    if low ≤ n.toNat ∧ n.toNat ≤ 3 ∧ (turnHeader n.toNat).hash = h then some (turnHeader n.toNat)
    else none
  getHeaderByNumber n :=
    if low ≤ n.toNat ∧ n.toNat ≤ 3 then some (turnHeader n.toNat) else none

def freshEngine : Clique where
  config := shortEpoch
  db := fun _ => none
  recents := fun _ => none
  signatures := sealOf

theorem reads_headersFrom (low : Nat) : turns.Reads {0, 2} (headersFrom low) := by
  refine ⟨fun i hi h hget => ?_, fun i hi _ h hget => ?_, fun b hb hpos hepoch _ => ?_⟩
  · simp only [headersFrom, turns.toNat_ofNat hi] at hget
    split_ifs at hget
    exact (Option.some.inj hget).symm
  · simp only [headersFrom, turns.toNat_ofNat hi] at hget
    split_ifs at hget
    exact (Option.some.inj hget).symm
  · have hall : ∀ b ≤ 3, 0 < b → UInt64.ofNat b % shortEpoch.epoch = 0 → b = 2 := by decide
    exact .inr (hall b hb hpos hepoch)

/-- An engine that has read the first block from a full node, and is started again as one that
has no headers before the checkpoint. -/
theorem snapshot_independent_turns :
    ∃ s, (([EngineOp.snapshot (headersFrom 0) 1 (turnHeader 1).hash [], .restart].foldl
        Clique.engineStep freshEngine).snapshot (headersFrom 2) (UInt64.ofNat 3)
          (turnHeader 3).hash []).1 = .ok s ∧
      s.signers = (turnSnap 3).signers ∧ s.votes = (turnSnap 3).votes ∧
      s.tally = (turnSnap 3).tally ∧
      ∃ b ∈ ({0, 2} : Set Nat), b ≤ 3 ∧ (∀ n, s.recents.lookup n =
          if b < n.toNat then (turnSnap 3).recents.lookup n else none) ∧
        (b = 0 → s = turnSnap 3) := by
  have hzero : zeroAddress ∉ (turnSnap 1).signers := by decide +kernel
  have htrusts : turns.Trusts {0, 2} := by
    refine ⟨.inl rfl, fun b hb hpos _ => ?_⟩
    rcases hb with rfl | rfl
    · omega
    · exact hzero
  have hfinds : turns.Finds (headersFrom 2) 3 [] := by
    refine ⟨2, by decide, .inr ⟨by decide, rfl⟩, rfl, 3, le_rfl, rfl, fun k hlow hhigh => ?_⟩
    obtain rfl : k = 3 := by omega
    exact if_pos ⟨by decide, by decide, rfl⟩
  refine ValidChain.snapshot_independent turns {0, 2} htrusts freshEngine rfl rfl (fun _ => rfl)
    (fun _ => rfl) _ (fun op hop => ?_) (headersFrom 2) (reads_headersFrom 2) 3 le_rfl []
    hfinds
  rcases List.mem_cons.mp hop with rfl | hop
  · exact ⟨reads_headersFrom 0, 1, by decide, rfl, rfl, fun y hy => absurd hy List.not_mem_nil⟩
  · obtain rfl := List.mem_singleton.mp hop
    trivial

/-- From the genesis the second block has two recent signers, from its trusted header none. -/
theorem snapshot_depends_on_checkpoint :
    ((freshEngine.snapshot (headersFrom 0) 2 (turns.header 2).hash []).1.toOption.map
        fun s => (s.recents.lookup 1, s.recents.lookup 2)) = some (some signerA, some signerB) ∧
      ((freshEngine.snapshot (headersFrom 2) 2 (turns.header 2).hash []).1.toOption.map
        fun s => (s.recents.lookup 1, s.recents.lookup 2)) = some (none, none) := by
  decide +kernel

end GethComments.Clique
