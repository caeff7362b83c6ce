import GethComments.Core.FastSync
import GethComments.Core.ImportCommitments
import GethComments.Core.CommitmentLedger

/-!
# Commitments after a full and after a fast synchronisation

Two nodes get the same valid chain: one executes its blocks with `insertChain`, the other
completes the headers with `InsertReceiptChain` and switches its head.

* `insertChain_valid`: a valid chain that is imported has each of its blocks executed once;
* `cmdb_imports`: the fold of `WriteAllCM` over the chain;
* `full_and_fast_sync_agree_iff`: the commitment databases agree exactly if the chain has no
  commitments at all.
-/

variable {b : Block}

namespace GethComments

open Block List

variable [HashFns]

/-- All stored blocks are at their number, up to `n`. -/
def BlockChain.UpTo (bc : BlockChain) (n : Nat) : Prop :=
  ∀ m h b, bc.blocks m h = some b → m.toNat ≤ n

/-- The numbers of the blocks count on from `n`, within `uint64`. -/
def CountFrom : Nat → List Block → Prop
  | _, [] => True
  | n, b :: bs => b.header.number = n + 1 ∧ n + 1 < 2 ^ 64 ∧ CountFrom (n + 1) bs

variable {bs : List Block}

omit [HashFns] in
theorem CountFrom.append {n : Nat} {cs : List Block} (h : CountFrom n (bs ++ cs)) :
    CountFrom n bs ∧ CountFrom (n + bs.length) cs := by
  induction bs generalizing n with
  | nil => exact ⟨trivial, h⟩
  | cons b bs ih =>
    obtain ⟨hb, hn, h⟩ := h
    obtain ⟨hbs, hcs⟩ := ih h
    refine ⟨⟨hb, hn, hbs⟩, ?_⟩
    rwa [length_cons, Nat.add_comm bs.length 1, ← Nat.add_assoc]

namespace ImportEnv

/-- The consensus engine accepts the headers and the uncles of the blocks. -/
structure Accepts (env : ImportEnv) (chain : List Block) : Prop where
  headers : ∀ reader seals (bs : List Block), (∀ b ∈ bs, b ∈ chain) →
    ∀ e ∈ env.verifyHeaders reader (bs.map header) seals, e = none
  uncles : ∀ reader, ∀ b ∈ chain, env.verifyUncles reader b = none

variable {env : ImportEnv} {bc bc' : BlockChain} {chain : List Block} {n : Nat}

theorem check_eq (hacc : env.Accepts chain) (hup : bc.UpTo n) (hb : b ∈ chain)
    (hnum : b.header.number = n + 1) (hfit : n + 1 < 2 ^ 64) :
    ∃ e, (env.check (b, none)).run bc = (e, bc) ∧ e ≠ some .knownBlock ∧ e ≠ some .futureBlock := by
  have hnew : bc.hasBlockAndState b.hash b.numberU64 = false := by
    unfold BlockChain.hasBlockAndState BlockChain.getBlock
    cases hstored : bc.blocks b.numberU64 b.hash with
    | none => rfl
    | some b' =>
      have hle := hup _ _ _ hstored
      rw [numberU64, hnum, UInt64.toNat_ofNat', Nat.mod_eq_of_lt hfit] at hle
      omega
  refine ⟨env.validateBody bc b, rfl, ?_⟩
  unfold validateBody
  rw [hnew, hacc.uncles bc.reader b hb]
  dsimp only
  split
  · cases ‹false = true›
  · split
    · simp
    · split
      · simp
      · split
        · split <;> simp
        · simp

variable {ρ ρ' : Type} {prev : Option Header} {e : Option ImportError}

omit [HashFns] in
theorem run_bind (m : ImportM ρ) (k : ρ → ImportM ρ') (bc : BlockChain) :
    (m >>= k).run bc = (k (m.run bc).1).run (m.run bc).2 := rfl

omit [HashFns] in
theorem run_observe_bind (f : BlockChain → ρ) (k : ρ → ImportM ρ') (bc : BlockChain) :
    (observe f >>= k).run bc = (k (f bc)).run bc := rfl

omit [HashFns] in
theorem run_liftChain_bind (f : BlockChain → BlockChain × ρ) (k : ρ → ImportM ρ') (bc : BlockChain)
    : (liftChain f >>= k).run bc = (k (f bc).2).run (f bc).1 := rfl

theorem importBlock_none (h : (env.importBlock prev b).run bc = (none, bc')) :
    ∃ w : BlockChain.BlockWrite, w.block = b ∧ bc.Writes w ∧
      (bc.writeBlockWithState w).1 = bc' := by
  rw [importBlock, run_observe_bind] at h
  cases hprev : prev.or ((bc.parent b).map header) with
  | none =>
    rw [hprev] at h
    cases h
  | some parent =>
    rw [hprev] at h
    rw [run_observe_bind] at h
    cases hst : bc.stateAt parent.root with
    | none =>
      rw [hst] at h
      cases h
    | some st =>
      rw [hst] at h
      rw [run_observe_bind] at h
      cases hp : process env.toExecEnv bc.reader b st with
      | error e =>
        rw [hp] at h
        cases h
      | ok p =>
        rw [hp] at h
        dsimp only at h
        cases hv : env.validateState b p with
        | some e =>
          rw [hv] at h
          cases h
        | none =>
          rw [hv, run_liftChain_bind] at h
          generalize hw : (⟨b, p.state, env.commit p.state, env.coin b, env.pruned b⟩ :
            BlockChain.BlockWrite) = w at h
          have hwb : w.block = b := by rw [← hw]
          cases hr : (bc.writeBlockWithState w).2 with
          | error e =>
            rw [hr] at h
            cases h
          | ok status =>
            rw [hr] at h
            refine ⟨w, hwb, ?_, congrArg Prod.snd h⟩
            cases htd : bc.getTd w.block.parentHash (w.block.numberU64 - 1) with
            | none =>
              rw [BlockChain.writeBlockWithState, htd] at hr
              cases hr
            | some ptd => simp [BlockChain.Writes, htd]

/-- What the main loop has done with a valid chain when it stops without an error: either all
blocks are written, or it stands at a block, with an error unless it was interrupted. -/
structure Progress (bc bc' : BlockChain) (n i : Nat) (bs : List Block) (c : Cursor) : Prop where
  done : c.cur = none → bc'.cmdb = bs.foldl RawDB.writeAllCM bc.cmdb ∧ bc'.UpTo (n + bs.length)
  stopped : ∀ b e, c.cur = some (b, e) →
    e ≠ some .futureBlock ∧ (e = none → c.index < i + bs.length)

theorem writeBlockWithState_above {w : BlockChain.BlockWrite} (hup : bc.UpTo n)
    (hw : bc.Writes w) (hnum : w.block.header.number = n + 1) :
    (bc.writeBlockWithState w).1.cmdb = RawDB.writeAllCM bc.cmdb w.block ∧
      (bc.writeBlockWithState w).1.UpTo (n + 1) := by
  refine ⟨by rw [BlockChain.cmdb_writeBlockWithState, if_pos hw], fun m h b hb => ?_⟩
  rcases BlockChain.blocks_writeBlockWithState hb with ⟨-, rfl, -⟩ | hb
  · rw [numberU64, hnum, UInt64.toNat_ofNat']
    exact Nat.mod_le _ _
  · exact (hup m h b hb).trans (Nat.le_succ n)

/-- The rest of the loop after a block. -/
def importNext (env : ImportEnv) (i : Nat) (b : Block) :
    List ImportItem → ImportM (Except (Nat × ImportError) Cursor)
  | [] => pure (.ok ⟨i + 1, some b.header, none, []⟩)
  | x :: rest => do
      let e ← env.check x
      env.importLoop (i + 1) (some b.header) x.1 e rest

theorem importLoop_cases {i : Nat} {rest : List ImportItem} {c : Cursor}
    (hknown : e ≠ some .knownBlock) (h : (env.importLoop i prev b e rest).run bc = (.ok c, bc')) :
    c = ⟨i, prev, some (b, e), rest⟩ ∨ ∃ w : BlockChain.BlockWrite, w.block = b ∧ bc.Writes w ∧
        (env.importNext i b rest).run (bc.writeBlockWithState w).1 = (.ok c, bc') := by
  unfold importLoop at h
  split at h
  case isTrue he =>
    obtain rfl : e = none := he.resolve_right hknown
    split at h
    · cases h
      exact Or.inl rfl
    · split at h
      · cases h
      · rw [importOrAdopt, if_pos rfl, run_bind] at h
        cases hi : (env.importBlock prev b).run bc with
        | mk r bc1 =>
          rw [hi] at h
          cases r with
          | some err => cases h
          | none =>
            obtain ⟨w, hwb, hw, rfl⟩ := importBlock_none hi
            exact Or.inr ⟨w, hwb, hw, by cases rest <;> exact h⟩
  case isFalse =>
    cases h
    exact Or.inl rfl

theorem importLoop_valid (hacc : env.Accepts chain) {i : Nat} {c : Cursor} (hup : bc.UpTo n)
    (hcount : CountFrom n (b :: bs)) (hmem : ∀ a ∈ b :: bs, a ∈ chain)
    (hknown : e ≠ some .knownBlock) (hfuture : e ≠ some .futureBlock)
    (h : (env.importLoop i prev b e (bs.map fun a => (a, none))).run bc = (.ok c, bc')) :
    Progress bc bc' n i (b :: bs) c := by
  induction bs generalizing n i prev b e bc
  all_goals rcases importLoop_cases hknown h with rfl | ⟨w, rfl, hw, h⟩
  case nil.inr =>
    cases h
    exact ⟨fun _ => writeBlockWithState_above hup hw hcount.1, nofun⟩
  case cons.inr a bs ih _ =>
    obtain ⟨hcm, hup1⟩ := writeBlockWithState_above hup hw hcount.1
    have hmem' : ∀ x ∈ a :: bs, x ∈ chain := fun x hx => hmem x (mem_cons_of_mem _ hx)
    obtain ⟨e', hcheck, hknown', hfuture'⟩ :=
      check_eq hacc hup1 (hmem' a mem_cons_self) hcount.2.2.1 hcount.2.2.2.1
    rw [map_cons, importNext, run_bind, hcheck] at h
    have hp := ih hup1 hcount.2.2 hmem' hknown' hfuture' h
    refine ⟨fun hcur => ?_, fun b' e'' hcur => ?_⟩
    · obtain ⟨hcmdb, hupTo⟩ := hp.done hcur
      refine ⟨by rw [hcmdb, hcm]; rfl, ?_⟩
      rwa [length_cons, Nat.add_comm _ 1, ← Nat.add_assoc]
    · obtain ⟨hf, hlt⟩ := hp.stopped b' e'' hcur
      exact ⟨hf, fun hnone => by have := hlt hnone; simp only [length_cons] at this ⊢; omega⟩
  -- The loop has stopped at `b`.
  all_goals
    refine ⟨nofun, fun b' e' hcur => ?_⟩
    cases hcur
    exact ⟨hfuture, fun _ => by simp⟩

theorem validateBody_of_parent (hparent : bc.hasBlockAndState b.parentHash (b.numberU64 - 1) = true)
    (huncles : env.verifyUncles bc.reader b = none) :
    env.validateBody bc b ≠ some .prunedAncestor ∧
      env.validateBody bc b ≠ some .unknownAncestor := by
  unfold validateBody
  rw [huncles, hparent]
  dsimp only
  split
  · simp
  · split
    · simp
    · split
      · simp
      · simp

theorem insertFrom_valid (hacc : env.Accepts chain) {first : Block}
    {importSegment : List Block → ImportM (Nat × Option ImportError)} (hup : bc.UpTo n)
    (hcount : CountFrom n (b :: bs)) (hmem : ∀ a ∈ b :: bs, a ∈ chain)
    (hknown : e ≠ some .knownBlock) (hfuture : e ≠ some .futureBlock)
    (hpruned : e ≠ some .prunedAncestor) (hunknown : e ≠ some .unknownAncestor)
    (h : (env.insertFrom importSegment first ⟨0, none, some (b, e), bs.map fun a => (a, none)⟩).run
      bc = (((b :: bs).length, none), bc')) :
    bc'.cmdb = (b :: bs).foldl RawDB.writeAllCM bc.cmdb ∧ bc'.UpTo (n + (b :: bs).length) := by
  unfold insertFrom at h
  dsimp only at h
  rw [run_observe_bind, if_neg hpruned,
    if_neg (fun hor => hor.elim hfuture fun hand => hunknown hand.1)] at h
  by_cases he : e ≠ none
  · rw [if_pos he] at h
    exact absurd (congrArg (fun r => r.1.2) h) he
  · rw [if_neg he, run_bind] at h
    cases hloop : (env.importLoop 0 none b e (bs.map fun a => (a, none))).run bc with
    | mk r bc1 =>
      rw [hloop] at h
      cases r with
      | error err =>
        have := congrArg (fun r => r.1.2) h
        cases this
      | ok c =>
        have hp := importLoop_valid hacc hup hcount hmem hknown hfuture hloop
        cases hcur : c.cur with
        | none =>
          dsimp only at h
          rw [hcur] at h
          obtain rfl : bc1 = bc' := congrArg Prod.snd h
          exact hp.done hcur
        | some item =>
          obtain ⟨b', e'⟩ := item
          obtain ⟨hf, hlt⟩ := hp.stopped b' e' hcur
          dsimp only at h
          rw [hcur] at h
          split at h
          case h_1 heq =>
            cases heq
            exact absurd rfl hf
          case h_2 =>
            have hindex : c.index = (b :: bs).length := congrArg (fun r => r.1.1) h
            have herr : e' = none := congrArg (fun r => r.1.2) h
            have := hlt herr
            omega

theorem insertChain_valid (hacc : env.Accepts chain) {fuel : Nat} {seals : Bool} (hup : bc.UpTo n)
    (hcount : CountFrom n bs) (hmem : ∀ a ∈ bs, a ∈ chain)
    (hparent : ∀ b ∈ bs.head?, bc.hasBlockAndState b.parentHash (b.numberU64 - 1) = true)
    (h : (env.insertChain fuel bs seals).run bc = ((bs.length, none), bc')) :
    bc'.cmdb = bs.foldl RawDB.writeAllCM bc.cmdb ∧ bc'.UpTo (n + bs.length) := by
  cases fuel with
  | zero =>
    have := congrArg (fun r => r.1.2) h
    cases this
  | succ fuel =>
    cases bs with
    | nil =>
      cases h
      exact ⟨rfl, hup⟩
    | cons b bs =>
      unfold insertChain at h
      split at h
      · have := congrArg (fun r => r.1.1) h
        simp at this
      · rw [run_observe_bind] at h
        have hresults := hacc.headers bc.reader seals (b :: bs) hmem
        generalize env.verifyHeaders bc.reader ((b :: bs).map header) seals =
          results at h hresults
        have hnone : ∀ k : Nat, (results[k]?).join = none := by
          intro k
          cases hk : results[k]? with
          | none => rfl
          | some e => exact hresults e (mem_of_getElem? hk)
        have hitems : (b :: bs).zipIdx.map (fun bi => (bi.1, (results[bi.2]?).join)) =
            (b, none) :: bs.map fun a => (a, none) := by
          simp only [hnone]
          have hfst : (b :: bs).zipIdx.map (fun bi => (bi.1, (none : Option ImportError))) =
              ((b :: bs).zipIdx.map Prod.fst).map fun a => (a, none) := by
            rw [map_map]
            rfl
          rw [hfst, zipIdx_map_fst, map_cons]
        dsimp only at h
        rw [hitems] at h
        obtain ⟨e, hcheck, hknown, hfuture⟩ :=
          check_eq hacc hup (hmem b mem_cons_self) hcount.1 hcount.2.1
        obtain ⟨hpruned, hunknown⟩ := validateBody_of_parent (hparent b rfl)
          (hacc.uncles bc.reader b (hmem b mem_cons_self))
        obtain rfl : env.validateBody bc b = e := congrArg Prod.fst hcheck
        dsimp only at h
        rw [run_bind, hcheck] at h
        rw [if_neg hknown] at h
        exact insertFrom_valid hacc hup hcount hmem hknown hfuture hpruned hunknown h

/-- A node gets the chain in one or more calls, each for blocks on top of a block whose state it
has, and none fails. -/
inductive Imports (env : ImportEnv) (fuel : Nat) :
    BlockChain → List (List Block) → BlockChain → Prop
  | done {bc : BlockChain} : Imports env fuel bc [] bc
  | call {bc bc₁ bc' : BlockChain} {bs : List Block} {rest : List (List Block)}
      (parent : ∀ b ∈ bs.head?, bc.hasBlockAndState b.parentHash (b.numberU64 - 1) = true)
      (call : (env.insertChain fuel bs true).run bc = ((bs.length, none), bc₁))
      (next : Imports env fuel bc₁ rest bc') : Imports env fuel bc (bs :: rest) bc'

theorem cmdb_imports {fuel : Nat} {batches : List (List Block)} (hacc : env.Accepts chain)
    (h : Imports env fuel bc batches bc') (hup : bc.UpTo n) (hcount : CountFrom n batches.flatten)
    (hmem : ∀ a ∈ batches.flatten, a ∈ chain) :
    bc'.cmdb = batches.flatten.foldl RawDB.writeAllCM bc.cmdb := by
  induction h generalizing n with
  | done => rfl
  | call parent call next ih =>
    rw [flatten_cons] at hcount hmem ⊢
    obtain ⟨hbs, hrest⟩ := hcount.append
    obtain ⟨hcm, hup1⟩ := insertChain_valid hacc hup hbs
      (fun a ha => hmem a (mem_append_left _ ha)) parent call
    rw [ih hup1 hrest fun a ha => hmem a (mem_append_right _ ha), hcm, foldl_append]

end ImportEnv

/-! ## The two databases -/

/-- The transaction is a purchase or a transfer. -/
def Transaction.HasCommitments (tx : Transaction) : Prop := tx.id = 0 ∨ tx.id = 1

theorem Transaction.HasCommitments.creates {tx : Transaction} (h : tx.HasCommitments) :
    ∃ k, tx.Creates k := by
  rcases h with h | h
  · exact ⟨cmHash tx.cmS, Or.inr ⟨h, Or.inl rfl⟩⟩
  · exact ⟨cmHash tx.cmV, Or.inl ⟨h, rfl⟩⟩

theorem Transaction.Touches.hasCommitments {tx : Transaction} {k : Hash} (h : tx.Touches k) :
    tx.HasCommitments := by
  rcases h with h | h | h
  · exact Or.inl h.1
  · exact Or.inr h.1
  · exact Or.inl h.1

theorem RawDB.foldl_writeAllCM_eq_empty_iff (chain : List Block) :
    chain.foldl writeAllCM emptyCMdb = emptyCMdb ↔
      ∀ b ∈ chain, ∀ tx ∈ b.transactions, ¬ tx.HasCommitments := by
  have htxs : chain.foldl writeAllCM emptyCMdb =
      writeTxs emptyCMdb (chain.flatMap transactions) := by
    rw [writeTxs, foldl_flatMap]
    rfl
  rw [htxs]
  constructor
  · intro hempty b hb tx htx hcm
    obtain ⟨k, hk⟩ := hcm.creates
    rcases writeTxs_cases (chain.flatMap transactions) emptyCMdb k with
      ⟨hnot, -⟩ | ⟨-, r, hr, -⟩
    · exact hnot tx (mem_flatMap.mpr ⟨b, hb, htx⟩) (Or.inr hk)
    · rw [hempty] at hr
      cases hr
  · intro hno
    funext k
    rcases writeTxs_cases (chain.flatMap transactions) emptyCMdb k with
      ⟨-, heq⟩ | ⟨⟨tx, htx, htouch⟩, -⟩
    · exact heq
    · obtain ⟨b, hb, htx⟩ := mem_flatMap.mp htx
      exact absurd htouch.hasCommitments (hno b hb tx htx)

open ImportEnv in
/-- **Full and fast synchronisation.** The commitment databases of the two nodes are the same
exactly if no block of the chain has a purchase or a transfer; then the two pools check
commitments alike. -/
theorem full_and_fast_sync_agree_iff {g : Block} (hnum : g.header.number = 0) (st : StateDB)
    (preserve : Option (Block → Bool)) {env : ImportEnv} {chain : List Block}
    (hacc : env.Accepts chain) (hcount : CountFrom 0 chain) {fuel : Nat}
    {batches : List (List Block)} (hbatches : batches.flatten = chain) {full : BlockChain}
    (hfull : Imports env fuel (BlockChain.genesisChain g st preserve) batches full)
    {interrupt : Block → Bool} {isFull : List (Block × List Receipt) → Bool}
    {start fast fast' : FastChain} (hempty : start.cmdb = RawDB.emptyCMdb)
    {parts : List (List (Block × List Receipt) × UInt64)}
    (hfast : start.insertReceiptChains interrupt isFull parts = some fast) {last : Block}
    (hhead : fast.fastSyncCommitHead last.hash = .ok fast') :
    (full.cmdb = fast'.cmdb ↔ ∀ b ∈ chain, ∀ tx ∈ b.transactions, ¬ tx.HasCommitments) ∧
      ((∀ b ∈ chain, ∀ tx ∈ b.transactions, ¬ tx.HasCommitments) →
        ∀ tx, validateCM full.cmdb tx = validateCM fast'.cmdb tx) := by
  have hup : (BlockChain.genesisChain g st preserve).UpTo 0 := by
    intro m h b hb
    simp only [BlockChain.genesisChain, Option.ite_none_right_eq_some] at hb
    rw [hb.1.1, numberU64, hnum]
    exact le_rfl
  have hfullCM : full.cmdb = chain.foldl RawDB.writeAllCM RawDB.emptyCMdb := by
    rw [cmdb_imports hacc hfull hup (hbatches.symm ▸ hcount) (fun a ha => hbatches ▸ ha), hbatches]
    rfl
  have hfastCM : fast'.cmdb = RawDB.emptyCMdb := by
    rw [FastChain.cmdb_fastSyncCommitHead hhead, FastChain.cmdb_insertReceiptChains parts hfast,
      hempty]
  have hiff := RawDB.foldl_writeAllCM_eq_empty_iff chain
  rw [hfullCM, hfastCM]
  exact ⟨hiff, fun hno tx => by rw [hiff.mpr hno]⟩

end GethComments

namespace GethComments

attribute [local instance] HashFns.plain

/-- A node that knows the headers of the genesis block and of one block on top of it. -/
def fastStart (b : Block) : FastChain where
  cmdb := RawDB.emptyCMdb
  headers n h := if n = 0 ∧ h = (default : Block).hash then some default
    else if n = 1 ∧ h = b.hash then some b.header else none
  tds n h := if n = 0 ∧ h = (default : Block).hash then some 0
    else if n = 1 ∧ h = b.hash then some b.difficulty else none
  bodies n h := if n = 0 ∧ h = (default : Block).hash then some ([], []) else none
  receipts n h := if n = 0 ∧ h = (default : Block).hash then some [] else none
  canonical n := if n = 0 then some (default : Block).hash
    else if n = 1 then some b.hash else none
  numbers h := if h = (default : Block).hash then some 0
    else if h = b.hash then some 1 else none
  txLookup _ := none
  ancients := []
  states _ := some default
  currentHeader := b.header
  currentFastBlock := default
  currentBlock := default
  headFastBlockHash := (default : Block).hash

/-- A block with a transaction that has no commitments. -/
def plainBlock : Block :=
  { BlockChain.purchaseBlock [] 1 with transactions := [{ (default : Transaction) with id := 2 }] }

theorem accepts_permissive (chain : List Block) : ImportEnv.permissive.Accepts chain where
  headers reader seals bs _ e he := by
    simp only [ImportEnv.permissive, List.mem_map] at he
    obtain ⟨-, -, rfl⟩ := he
    rfl
  uncles _ _ _ := rfl

theorem imports_one
    (hparent : (BlockChain.genesisChain default default none).hasBlockAndState b.parentHash
      (b.numberU64 - 1) = true)
    (h : ((ImportEnv.permissive.insertChain 1 [b] true).run
      (BlockChain.genesisChain default default none)).1 = (1, none)) :
    ImportEnv.Imports ImportEnv.permissive 1 (BlockChain.genesisChain default default none) [[b]]
      ((ImportEnv.permissive.insertChain 1 [b] true).run
        (BlockChain.genesisChain default default none)).2 := by
  refine .call (fun a ha => ?_) (Prod.ext h rfl) .done
  cases ha
  exact hparent

theorem exists_fastSync {limit : UInt64}
    (h : ((fastStart b).insertReceiptChains (fun _ => false) (fun _ => false)
      [([(b, [])], limit)]).any (fun fast => (fast.fastSyncCommitHead b.hash).isOk) = true) :
    ∃ fast fast', (fastStart b).insertReceiptChains (fun _ => false) (fun _ => false)
        [([(b, [])], limit)] = some fast ∧ fast.fastSyncCommitHead b.hash = .ok fast' := by
  obtain ⟨fast, hfast⟩ := Option.isSome_iff_exists.mp (Option.isSome_of_any h)
  have hok : (fast.fastSyncCommitHead b.hash).isOk = true := by rwa [hfast] at h
  cases hhead : fast.fastSyncCommitHead b.hash with
  | error e =>
    rw [hhead] at hok
    cases hok
  | ok fast' => exact ⟨fast, fast', hfast, hhead⟩

/-- The block, through the ancient store. -/
theorem full_and_fast_sync_agree_plain : ∃ full fast fast', ImportEnv.Imports ImportEnv.permissive 1
        (BlockChain.genesisChain default default none) [[plainBlock]] full ∧
      (fastStart plainBlock).insertReceiptChains (fun _ => false) (fun _ => false)
        [([(plainBlock, [])], 1)] = some fast ∧
      fast.fastSyncCommitHead plainBlock.hash = .ok fast' ∧ full.cmdb = fast'.cmdb := by
  have hfull := imports_one (b := plainBlock) (by decide +kernel) (by decide +kernel)
  obtain ⟨fast, fast', hfast, hhead⟩ := exists_fastSync (show
    ((fastStart plainBlock).insertReceiptChains (fun _ => false) (fun _ => false)
      [([(plainBlock, [])], 1)]).any (fun fast =>
        (fast.fastSyncCommitHead plainBlock.hash).isOk) = true by decide)
  have hagree := full_and_fast_sync_agree_iff rfl default none (accepts_permissive [plainBlock])
    ⟨rfl, by decide, trivial⟩ rfl hfull rfl hfast hhead
  refine ⟨_, fast, fast', hfull, hfast, hhead, hagree.1.mpr ?_⟩
  simp [plainBlock, Transaction.HasCommitments]

/-- A block with one purchase, through the live database: the node that has executed it refuses
the purchase as existing, the other one takes it. -/
theorem fast_sync_misses_commitments : ∃ full fast fast', ImportEnv.Imports ImportEnv.permissive 1
        (BlockChain.genesisChain default default none) [[BlockChain.purchaseBlock [8] 2]] full ∧
      (fastStart (BlockChain.purchaseBlock [8] 2)).insertReceiptChains (fun _ => false)
        (fun _ => false) [([(BlockChain.purchaseBlock [8] 2, [])], 0)] = some fast ∧
      fast.fastSyncCommitHead (BlockChain.purchaseBlock [8] 2).hash = .ok fast' ∧
      full.cmdb ≠ fast'.cmdb ∧
      ∀ tx ∈ (BlockChain.purchaseBlock [8] 2).transactions,
        validateCM full.cmdb tx = some .existedCM ∧ validateCM fast'.cmdb tx = none := by
  have hfull := imports_one (b := BlockChain.purchaseBlock [8] 2) (by decide)
    (by decide +kernel)
  obtain ⟨fast, fast', hfast, hhead⟩ := exists_fastSync (show
    ((fastStart (BlockChain.purchaseBlock [8] 2)).insertReceiptChains (fun _ => false)
      (fun _ => false) [([(BlockChain.purchaseBlock [8] 2, [])], 0)]).any (fun fast =>
        (fast.fastSyncCommitHead (BlockChain.purchaseBlock [8] 2).hash).isOk) = true by
    decide)
  have hcm : fast'.cmdb = RawDB.emptyCMdb := by
    rw [FastChain.cmdb_fastSyncCommitHead hhead, FastChain.cmdb_insertReceiptChains _ hfast]
    rfl
  have hverdict : ∀ tx ∈ (BlockChain.purchaseBlock [8] 2).transactions,
      validateCM ((ImportEnv.permissive.insertChain 1 [BlockChain.purchaseBlock [8] 2] true).run
        (BlockChain.genesisChain default default none)).2.cmdb tx = some .existedCM ∧
      validateCM RawDB.emptyCMdb tx = none := by decide +kernel
  refine ⟨_, fast, fast', hfull, hfast, hhead, fun heq => ?_, hcm ▸ hverdict⟩
  obtain ⟨hex, hnone⟩ := hverdict _ (List.mem_singleton_self _)
  rw [heq, hcm, hnone] at hex
  cases hex

end GethComments
