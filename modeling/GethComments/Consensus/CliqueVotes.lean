import GethComments.Consensus.CliqueSnapshot

/-!
# The vote ledger of a clique snapshot

The tally of a snapshot is a cache: what it should say of an account is the number of the votes
on it, all of which ask for the change that still makes sense.

* `Tallied`: the tally is the recount of a list of votes, with one lemma for each way in which
  `apply` changes the two together;
* `Exact`: the votes are tallied, cast by signers, and one for each signer and account;
* `applyHeader_exact`: an accepted header keeps the ledger exact;
* `apply_ledger_exact`: so does every list of headers from a list of signers on.
-/

namespace GethComments.Clique

open Snapshot List

/-! ## Recounting -/

/-- The tally of an account where all votes on it say what `flag` says. -/
def recount (flag : Address → Bool) (votes : List Vote) (address : Address) : Option Tally :=
  if votes.countP (fun v => v.address = address) = 0 then none
  else some ⟨flag address, votes.countP fun v => v.address = address⟩

structure Tallied (flag : Address → Bool) (votes : List Vote)
    (tally : Finmap fun _ : Address => Tally) : Prop where
  recount : ∀ a, tally.lookup a = recount flag votes a
  agree : ∀ v ∈ votes, v.authorize = flag v.address

variable {a : Address}

theorem recount_congr {flag flag' : Address → Bool} {votes votes' : List Vote}
    (hflag : flag a = flag' a)
    (hcount : votes.countP (fun v => v.address = a) = votes'.countP fun v => v.address = a) :
    recount flag votes a = recount flag' votes' a := by
  simp [recount, hcount, hflag]

namespace Tallied

variable {flag flag' : Address → Bool} {votes votes' us vs : List Vote} {s : Snapshot} {v : Vote}
  {tally : Finmap fun _ : Address => Tally}

theorem nil (flag : Address → Bool) : Tallied flag [] ∅ :=
  ⟨fun a => by simp [Clique.recount], fun _ hv => absurd hv not_mem_nil⟩

theorem perm (h : Tallied flag votes tally) (hperm : votes.Perm votes') :
    Tallied flag votes' tally := by
  refine ⟨fun a => ?_, fun v hv => h.agree v (hperm.mem_iff.mpr hv)⟩
  rw [h.recount a]
  exact recount_congr rfl (hperm.countP_eq _)

theorem recount_cons_of_ne (ha : v.address ≠ a) :
    Clique.recount flag (v :: vs) a = Clique.recount flag vs a :=
  recount_congr rfl (countP_cons_of_neg (by simpa using ha))

theorem recount_cons_self : Clique.recount flag (v :: vs) v.address =
      some ⟨flag v.address, vs.countP (fun w => w.address = v.address) + 1⟩ := by
  simp [Clique.recount]

theorem uncast (h : Tallied flag (v :: vs) s.tally) :
    Tallied flag vs (s.uncast v.address v.authorize).2.tally := by
  refine ⟨fun a => ?_, fun w hw => h.agree w (mem_cons_of_mem v hw)⟩
  have hlook : s.tally.lookup v.address = _ := (h.recount v.address).trans recount_cons_self
  have hflag : v.authorize = flag v.address := h.agree v mem_cons_self
  unfold Snapshot.uncast
  rw [hlook, hflag]
  by_cases ha : v.address = a
  · subst ha
    by_cases hcount : vs.countP (fun w => w.address = v.address) = 0
    · simp [Clique.recount, hcount]
    · have hgt : vs.countP (fun w => w.address = v.address) + 1 > 1 := by omega
      simp [Clique.recount, hcount, hgt]
  · have hother : s.tally.lookup a = Clique.recount flag vs a :=
      (h.recount a).trans (recount_cons_of_ne ha)
    have hne : a ≠ v.address := Ne.symm ha
    simp only [ne_eq, not_true_eq_false, if_false]
    split_ifs
    · rw [Finmap.lookup_insert_of_ne _ hne, hother]
    · rw [Finmap.lookup_erase_ne hne, hother]

theorem uncastAll (h : Tallied flag (us ++ vs) s.tally) :
    Tallied flag vs (us.foldl (fun s v => (s.uncast v.address v.authorize).2) s).tally := by
  induction us generalizing s with
  | nil => exact h
  | cons u us ih => exact ih h.uncast

theorem cast (h : Tallied flag vs s.tally) (hflag : v.authorize = flag v.address)
    (hvalid : s.validVote v.address v.authorize = true) :
    (s.cast v.address v.authorize).1 = true ∧
      Tallied flag (v :: vs) (s.cast v.address v.authorize).2.tally := by
  have hagree : ∀ w ∈ v :: vs, w.authorize = flag w.address :=
    forall_mem_cons.mpr ⟨hflag, h.agree⟩
  have hcast : s.cast v.address v.authorize = (true, { s with
      tally := s.tally.insert v.address
        ⟨flag v.address, vs.countP (fun w => w.address = v.address) + 1⟩ }) := by
    rw [Snapshot.cast, hvalid, h.recount v.address, Clique.recount]
    by_cases hcount : vs.countP (fun w => w.address = v.address) = 0
    · simp [hcount, hflag]
    · simp [hcount]
  rw [hcast]
  refine ⟨rfl, fun a => ?_, hagree⟩
  by_cases ha : v.address = a
  · subst ha
    rw [recount_cons_self, Finmap.lookup_insert]
  · rw [Finmap.lookup_insert_of_ne _ (Ne.symm ha), h.recount a, recount_cons_of_ne ha]

theorem erase (h : Tallied flag votes tally) (hflag : ∀ b ≠ a, flag b = flag' b) :
    Tallied flag' (votes.filter fun v => v.address ≠ a) (tally.erase a) := by
  refine ⟨fun b => ?_, fun v hv => ?_⟩
  · by_cases hb : b = a
    · subst hb
      have hnone : (votes.filter fun v => v.address ≠ b).countP (fun v => v.address = b) = 0 := by
        rw [countP_eq_zero]
        intro v hv
        simpa using (mem_filter.mp hv).2
      rw [Finmap.lookup_erase, Clique.recount, if_pos hnone]
    · rw [Finmap.lookup_erase_ne hb, h.recount b]
      apply recount_congr (hflag b hb)
      rw [countP_filter]
      apply countP_congr
      intro v _
      simp only [decide_eq_true_eq, Bool.and_eq_true, ne_eq]
      exact ⟨fun hv => ⟨hv, hv ▸ hb⟩, fun hv => hv.1⟩
  · obtain ⟨hv, hne⟩ := mem_filter.mp hv
    rw [h.agree v hv]
    exact hflag v.address (by simpa using hne)

end Tallied

/-! ## Exact ledgers -/

/-- A change of an account that still makes sense. -/
def Snapshot.flag (s : Snapshot) (address : Address) : Bool := decide (address ∉ s.signers)

def Vote.Same (v w : Vote) : Prop := v.signer = w.signer ∧ v.address = w.address

structure Snapshot.Exact (s : Snapshot) : Prop where
  tallied : Tallied s.flag s.votes s.tally
  voters : ∀ v ∈ s.votes, v.signer ∈ s.signers
  single : s.votes.Pairwise fun v w => ¬ v.Same w

namespace Snapshot

variable {s s' : Snapshot} {v : Vote} {number : UInt64} {signer address : Address}

theorem validVote_eq_true {authorize : Bool} :
    s.validVote address authorize = true ↔ authorize = s.flag address := by
  by_cases h : address ∈ s.signers <;> cases authorize <;> simp [validVote, flag, h]

theorem flag_congr (h : s'.signers = s.signers) : s'.flag = s.flag := by
  funext a
  simp only [flag, h]

/-! ## The steps keep the ledger exact -/

namespace Exact

theorem frame (h : s.Exact) (hsigners : s'.signers = s.signers) (hvotes : s'.votes = s.votes)
    (htally : s'.tally = s.tally) : s'.Exact := by
  refine ⟨?_, ?_, ?_⟩
  · rw [flag_congr hsigners, hvotes, htally]
    exact h.tallied
  · rw [hvotes, hsigners]
    exact h.voters
  · rw [hvotes]
    exact h.single

theorem clearVotes (h : s.Exact) (config : CliqueConfig) : (s.clearVotes config number).Exact := by
  unfold Snapshot.clearVotes
  split_ifs
  · exact ⟨Tallied.nil _, fun _ hv => absurd hv not_mem_nil, List.Pairwise.nil⟩
  · exact h

theorem sealed (h : s.Exact) (config : CliqueConfig) (number : UInt64) (signer : Address) :
    (s.sealed config number signer).Exact :=
  (h.clearVotes config).frame rfl rfl rfl

theorem discardVote (h : s.Exact) (signer address : Address) :
    (s.discardVote signer address).Exact ∧
      ∀ v ∈ (s.discardVote signer address).votes, ¬ (v.signer = signer ∧ v.address = address) := by
  unfold Snapshot.discardVote
  cases hfind : s.votes.find? fun v => v.signer = signer ∧ v.address = address with
  | none =>
    refine ⟨h, fun v hv => ?_⟩
    simpa using find?_eq_none.mp hfind v hv
  | some v =>
    obtain ⟨hv, as, bs, hvotes, has⟩ := find?_eq_some_iff_append.mp hfind
    have hv : v.signer = signer ∧ v.address = address := by simpa using hv
    have has : ∀ w ∈ as, ¬ (w.signer = signer ∧ w.address = address) := fun w hw => by
      simpa only [Bool.not_eq_true', decide_eq_false_iff_not] using has w hw
    have herase : (s.votes.eraseP fun v => v.signer = signer ∧ v.address = address) = as ++ bs := by
      rw [hvotes, eraseP_append_right _ fun w hw => by
        simpa only [decide_eq_true_eq] using has w hw]
      rw [eraseP_cons_of_pos (by simpa using hv)]
    have hsub : ∀ w ∈ as ++ bs, w ∈ s.votes := by
      intro w hw
      rw [hvotes]
      exact (sublist_append_right [v] bs).append_left as |>.subset hw
    have hpair := h.single
    rw [hvotes, pairwise_append, pairwise_cons] at hpair
    obtain ⟨hpas, ⟨hvbs, hpbs⟩, hcross⟩ := hpair
    have hsigners := congrArg signers (uncast_eq s v.address v.authorize)
    dsimp only
    rw [herase]
    refine ⟨⟨?_, fun w hw => ?_, ?_⟩, fun w hw => ?_⟩
    · have hperm : s.votes.Perm (v :: (as ++ bs)) := hvotes ▸ perm_middle
      exact flag_congr hsigners ▸ (h.tallied.perm hperm).uncast
    · exact hsigners ▸ h.voters w (hsub w hw)
    · exact pairwise_append.mpr
        ⟨hpas, hpbs, fun x hx y hy => hcross x hx y (mem_cons_of_mem v hy)⟩
    · rcases mem_append.mp hw with hw | hw
      · exact has w hw
      · rintro ⟨hs, ha⟩
        exact hvbs w hw ⟨hv.1.trans hs.symm, hv.2.trans ha.symm⟩

theorem addVote (h : s.Exact) (hsigner : v.signer ∈ s.signers)
    (hnew : ∀ w ∈ s.votes, ¬ (w.signer = v.signer ∧ w.address = v.address)) :
    (s.addVote v).Exact := by
  have hsigners := congrArg signers (addVote_eq s v)
  by_cases hvalid : s.validVote v.address v.authorize = true
  · obtain ⟨hcast, htallied⟩ := h.tallied.cast (validVote_eq_true.mp hvalid) hvalid
    have hvotes : (s.addVote v).votes = s.votes ++ [v] := by
      have hsame : (s.cast v.address v.authorize).2.votes = s.votes := by
        unfold cast
        rw [hvalid]
        cases s.tally.lookup v.address <;> rfl
      simp only [Snapshot.addVote, hcast, if_true, hsame]
    have htally : (s.addVote v).tally = (s.cast v.address v.authorize).2.tally := by
      simp [Snapshot.addVote, hcast]
    refine ⟨?_, ?_, ?_⟩
    · rw [flag_congr hsigners, hvotes, htally]
      exact htallied.perm (perm_append_singleton v s.votes).symm
    · rw [hvotes, hsigners]
      exact forall_mem_append.mpr ⟨h.voters, forall_mem_singleton.mpr hsigner⟩
    · rw [hvotes]
      refine pairwise_append.mpr ⟨h.single, pairwise_singleton _ v, fun w hw x hx => ?_⟩
      exact mem_singleton.mp hx ▸ hnew w hw
  · rw [addVote_of_invalid s v (Bool.not_eq_true _ ▸ hvalid)]
    exact h

theorem forget (hs : Tallied s.flag s'.votes s'.tally)
    (hvoters : ∀ v ∈ s'.votes, v.signer ∈ s'.signers)
    (hsingle : s'.votes.Pairwise fun v w => ¬ v.Same w)
    (hsigners : ∀ b ≠ address, b ∈ s'.signers ↔ b ∈ s.signers) : (s'.forget address).Exact := by
  refine ⟨hs.erase fun b hb => ?_, fun v hv => ?_, ?_⟩
  · simp [flag, Snapshot.forget, hsigners b hb]
  · exact hvoters v (mem_filter.mp hv).1
  · exact hsingle.sublist filter_sublist

theorem settle (h : s.Exact) : (s.settle number address).Exact := by
  unfold Snapshot.settle
  dsimp only
  split_ifs
  · refine forget (s := s) h.tallied (fun v hv => ?_) h.single fun b hb => ?_
    · exact Finset.mem_insert_of_mem (h.voters v hv)
    · simp [enroll, hb]
  · -- the votes by the removed signer are uncast, then those about it forgotten
    have hsplit : ((s.votes.filter fun v => v.signer = address) ++
        s.votes.filter fun v => v.signer ≠ address).Perm s.votes := by
      simpa using filter_append_perm (fun v : Vote => decide (v.signer = address)) s.votes
    have hkept := congrArg votes (dismiss_eq s number address)
    have hremain := congrArg signers (dismiss_eq s number address)
    refine forget (s := s) ?_ (fun v hv => ?_) ?_ fun b hb => ?_
    · rw [hkept]
      exact Tallied.uncastAll (h.tallied.perm hsplit.symm)
    · rw [hkept] at hv
      obtain ⟨hv, hne⟩ := mem_filter.mp hv
      rw [hremain]
      exact Finset.mem_erase.mpr ⟨by simpa using hne, h.voters v hv⟩
    · rw [hkept]
      exact h.single.sublist filter_sublist
    · rw [hremain, Finset.mem_erase, and_iff_right hb]
  · exact h

end Exact

/-! ## Headers -/

variable {config : CliqueConfig} {recover : Header → Except CliqueError Address} {header : Header}

theorem applyHeader_exact (h : s.Exact) (ha : applyHeader config recover s header = .ok s') :
    s'.Exact := by
  obtain ⟨signer, authorize, hcheck, -, rfl⟩ := applyHeader_eq_ok ha
  obtain ⟨-, hmem, -⟩ := checkSigner_eq_ok hcheck
  obtain ⟨hdrop, hnew⟩ := (h.sealed config header.numberU64 signer).discardVote signer
    header.coinbase
  apply Exact.settle
  apply hdrop.addVote
  · rw [discardVote_eq, sealed, clearVotes_eq]
    rw [clearVotes_eq] at hmem
    exact hmem
  · exact hnew

theorem newSnapshot_exact (hash : Hash) (signers : List Address) :
    (newSnapshot number hash signers).Exact :=
  ⟨Tallied.nil _, fun _ hv => absurd hv not_mem_nil, List.Pairwise.nil⟩

variable [HashFns]

theorem apply_exact {headers : List Header} (h : s.Exact)
    (ha : apply config recover s headers = .ok s') : s'.Exact := by
  obtain ⟨-, t, hfold, rfl⟩ := apply_eq_ok.mp ha
  have ht : t.Exact :=
    Run.foldlM_ok_invariant headers (fun s s' _ _ hs ha => applyHeader_exact hs ha) h hfold
  exact ht.frame rfl rfl rfl

/-- **The vote ledger of a clique snapshot is exact.** -/
theorem apply_ledger_exact (number : UInt64) (hash : Hash) (signers : List Address)
    (headers : List Header) (snap : Snapshot)
    (h : apply config recover (newSnapshot number hash signers) headers = .ok snap) :
    (∀ a t, snap.tally.lookup a = some t →
      t.votes = (snap.votes.filter fun v => v.address = a).length ∧
      (∀ v ∈ snap.votes, v.address = a → v.authorize = t.authorize) ∧
      (t.authorize = true ↔ a ∉ snap.signers)) ∧
    (snap.votes.Pairwise fun v w => ¬ (v.signer = w.signer ∧ v.address = w.address)) ∧
    ∀ v ∈ snap.votes, v.signer ∈ snap.signers := by
  have hexact := apply_exact (newSnapshot_exact hash signers) h
  refine ⟨fun a t ht => ?_, hexact.single, hexact.voters⟩
  rw [hexact.tallied.recount a] at ht
  unfold recount at ht
  split_ifs at ht with hcount
  obtain rfl := Option.some.inj ht
  refine ⟨List.countP_eq_length_filter, fun v hv ha => ?_, by simp [flag]⟩
  rw [hexact.tallied.agree v hv, ha]

end Snapshot

end GethComments.Clique

namespace GethComments.Clique.Snapshot

attribute [local instance] HashFns.plain

/-! ## A voting -/

/-- A header for runs in which the extra-data is the signer. -/
def ballot (number : Nat) (signer coinbase : Address) (nonce : Bytes) : Header :=
  { (default : Header) with number, extra := signer, coinbase, nonce }

/-- The third of three signers votes for a new one and is then voted out by the others. -/
def dismissal : List Header :=
  [ballot 1 [3] [4] nonceAuthVote, ballot 2 [1] [3] nonceDropVote, ballot 3 [2] [3] nonceDropVote,
    ballot 4 [1] [4] nonceAuthVote]

def dismissed : Except CliqueError Snapshot :=
  apply ⟨15, 30000⟩ (fun h => .ok h.extra) (newSnapshot 0 [] [[1], [2], [3]]) dismissal

theorem apply_ledger_exact_dismissal : ∃ snap, dismissed = .ok snap ∧ snap.signers = {[1], [2]} ∧
      snap.votes = [⟨[1], 4, [4], true⟩] ∧
      (∀ a t, snap.tally.lookup a = some t →
        t.votes = (snap.votes.filter fun v => v.address = a).length ∧
        (∀ v ∈ snap.votes, v.address = a → v.authorize = t.authorize) ∧
        (t.authorize = true ↔ a ∉ snap.signers)) ∧
      (snap.votes.Pairwise fun v w => ¬ (v.signer = w.signer ∧ v.address = w.address)) ∧
      ∀ v ∈ snap.votes, v.signer ∈ snap.signers := by
  have hrun : (dismissed.toOption.map fun s => (s.signers, s.votes)) =
      some ({[1], [2]}, [⟨[1], 4, [4], true⟩]) := by decide
  cases h : dismissed with
  | error err => rw [h] at hrun; cases hrun
  | ok snap =>
    rw [h] at hrun
    obtain ⟨hsigners, hvotes⟩ := Prod.mk.inj (Option.some.inj hrun)
    exact ⟨snap, rfl, hsigners, hvotes, apply_ledger_exact 0 [] _ dismissal snap h⟩

end GethComments.Clique.Snapshot
