import GethComments.Consensus.Clique
import GethComments.Consensus.CliqueVotes

/-!
# Who may seal

A signer that sealed a block has to wait for `limit - 1` others. `Snapshot.apply` enforces it
by what it deletes from the recent signers, `verifySeal` by a comparison of block numbers.

* `window_nodup`: with a fixed number of signers, no signer is twice among `limit` headers in a
  row;
* `Windowed`: the recent signers of a snapshot are those of the last `limit` blocks;
* `checkSeal_agrees_iff`, `recent_rules_iff`: when the two rules agree;
* `seal_rules_agree`: both together, for the engine;
* `apply_keeps_signer`: there is a signer that may seal, unless the only one votes itself out.
-/

namespace GethComments.Clique

open Snapshot Finmap Finset List

variable {config : CliqueConfig} {recover : Header → Except CliqueError Address}
  {s s' : Snapshot} {header : Header}

/-! ## The window of `apply` -/

variable {recents : Finmap fun _ : UInt64 => Address} {limit d N : Nat} {n number : UInt64}
  {a : Address} {headers : List Header} {err : CliqueError} {c : Clique}

theorem lookup_shift_of_lt (hd : d < limit) (hn : number = n + UInt64.ofNat d) :
    (shift recents limit number).lookup n = recents.lookup n := by
  unfold shift
  split_ifs with hlimit
  · have hlt : limit < 2 ^ 64 := lt_of_le_of_lt hlimit number.toNat_lt
    have hne : n ≠ number - UInt64.ofNat limit := by
      intro h
      have heq : UInt64.ofNat d = UInt64.ofNat limit := by
        rw [hn] at h
        have hadd : n + UInt64.ofNat limit = n + UInt64.ofNat d := by
          nth_rewrite 1 [h]
          rw [UInt64.sub_add_cancel]
        exact ((UInt64.add_right_inj n).mp hadd).symm
      have htoNat := congrArg UInt64.toNat heq
      rw [UInt64.toNat_ofNat', UInt64.toNat_ofNat', Nat.mod_eq_of_lt hlt,
        Nat.mod_eq_of_lt (lt_trans hd hlt)] at htoNat
      omega
    exact lookup_erase_ne hne
  · rfl

/-- The seal of a block is on record as long as it is one of the last. -/
theorem lookup_recents_of_applyHeader (hN : N < 2 ^ 63) (hd : d + 1 ≤ N / 2)
    (hnumber : header.numberU64 = n + UInt64.ofNat (d + 1)) (hs : s.signers.card = N)
    (hs' : s'.signers.card = N) (ha : applyHeader config recover s header = .ok s')
    (hlook : s.recents.lookup n = some a) :
    s'.recents.lookup n = some a ∧ recover header ≠ .ok a := by
  obtain ⟨signer, hrec, -, hnot, -, -, hcases⟩ := applyHeader_spec ha
  have hlimit : s.limit = N / 2 + 1 := by rw [limit, hs]
  have hlimit' : s'.limit = N / 2 + 1 := by rw [limit, hs']
  have hkept : (shift s.recents s.limit header.numberU64).lookup n = some a := by
    rw [lookup_shift_of_lt (by omega) hnumber, hlook]
  have hne : n ≠ header.numberU64 := by
    intro h
    have hzero : UInt64.ofNat (d + 1) = 0 := by
      have hadd : n + 0 = n + UInt64.ofNat (d + 1) := by
        rw [UInt64.add_zero]
        exact h.trans hnumber
      exact ((UInt64.add_right_inj n).mp hadd).symm
    have htoNat := congrArg UInt64.toNat hzero
    rw [UInt64.toNat_ofNat', Nat.mod_eq_of_lt (by omega)] at htoNat
    exact Nat.succ_ne_zero d htoNat
  have hinsert : ((shift s.recents s.limit header.numberU64).insert header.numberU64
      signer).lookup n = some a := by
    rw [lookup_insert_of_ne _ hne, hkept]
  refine ⟨?_, fun h => hnot n ?_⟩
  · rcases hcases with ⟨hr, -⟩ | ⟨hr, -⟩
    · rw [hr, hinsert]
    · rw [hr, lookup_shift_of_lt (by omega) hnumber, hinsert]
  · rw [hkept, ← Except.ok.inj (hrec.symm.trans h)]

/-- All snapshots on the way over a list of headers have `N` signers. -/
def SizedAlong (config : CliqueConfig) (recover : Header → Except CliqueError Address) (N : Nat)
    (s : Snapshot) (headers : List Header) : Prop :=
  ∀ k t, (headers.take k).foldlM (applyHeader config recover) s = .ok t → t.signers.card = N

theorem SizedAlong.card (h : SizedAlong config recover N s headers) : s.signers.card = N :=
  h 0 s rfl

theorem SizedAlong.tail (h : SizedAlong config recover N s (header :: headers))
    (ha : applyHeader config recover s header = .ok s') :
    SizedAlong config recover N s' headers := by
  intro k t ht
  apply h (k + 1) t
  rw [take_succ_cons, foldlM_cons, ha]
  exact ht

theorem recover_ne_of_recent (hN : N < 2 ^ 63) (headers : List Header)
    (hd : d + headers.length ≤ N / 2) (hfollows : follows (n + UInt64.ofNat d) headers = true)
    (hsize : SizedAlong config recover N s headers)
    (ha : headers.foldlM (applyHeader config recover) s = .ok s')
    (hlook : s.recents.lookup n = some a) : ∀ header ∈ headers, recover header ≠ .ok a := by
  induction headers generalizing s d with
  | nil => exact fun header h => absurd h not_mem_nil
  | cons header headers ih =>
    obtain ⟨s1, h1, ha⟩ := Run.foldlM_cons_eq_ok ha
    rw [length_cons] at hd
    simp only [follows, Bool.and_eq_true, decide_eq_true_eq] at hfollows
    have hnumber : header.numberU64 = n + UInt64.ofNat (d + 1) := by
      rw [hfollows.1, UInt64.ofNat_add, UInt64.add_assoc]
      rfl
    have hsize1 := hsize.tail h1
    obtain ⟨hlook1, hne⟩ := lookup_recents_of_applyHeader hN (by omega) hnumber hsize.card
      hsize1.card h1 hlook
    exact forall_mem_cons.mpr
      ⟨hne, ih (d := d + 1) (by omega) (hnumber ▸ hfollows.2) hsize1 ha hlook1⟩

theorem foldlM_take (h : headers.foldlM (applyHeader config recover) s = .ok s') (k : Nat) :
    ∃ t, (headers.take k).foldlM (applyHeader config recover) s = .ok t := by
  rw [← take_append_drop k headers, foldlM_append] at h
  cases ht : (headers.take k).foldlM (applyHeader config recover) s with
  | error err => rw [ht] at h; cases h
  | ok t => exact ⟨t, rfl⟩

theorem follows_take (k : Nat) (h : follows n headers = true) :
    follows n (headers.take k) = true := by
  rw [← take_append_drop k headers, follows_append] at h
  exact h.1

theorem SizedAlong.take (h : SizedAlong config recover N s headers) (k : Nat) :
    SizedAlong config recover N s (headers.take k) := by
  intro j t ht
  rw [List.take_take] at ht
  exact h _ t ht

/-- **The signers of `N / 2 + 1` headers in a row are different.** -/
theorem window_nodup (hN : N < 2 ^ 63) (headers : List Header) (hfollows : follows n headers = true)
    (hsize : SizedAlong config recover N s headers)
    (ha : headers.foldlM (applyHeader config recover) s = .ok s') :
    ∃ signers : List Address, headers.map recover = signers.map .ok ∧
      ∀ i, ((signers.drop i).take (N / 2 + 1)).Nodup := by
  induction headers generalizing s n with
  | nil => exact ⟨[], rfl, fun i => by simp⟩
  | cons header headers ih =>
    obtain ⟨s1, h1, ha⟩ := Run.foldlM_cons_eq_ok ha
    simp only [follows, Bool.and_eq_true, decide_eq_true_eq] at hfollows
    have hsize1 := hsize.tail h1
    obtain ⟨signers, hmap, hwindows⟩ := ih hfollows.2 hsize1 ha
    obtain ⟨a, hrec, -, -, -, -, hcases⟩ := applyHeader_spec h1
    refine ⟨a :: signers, by rw [List.map_cons, List.map_cons, hrec, hmap], fun i => ?_⟩
    cases i with
    | succ i => exact hwindows i
    | zero =>
      have hlook : s1.recents.lookup header.numberU64 = some a := by
        rcases hcases with ⟨hr, -⟩ | ⟨hr, -⟩
        · rw [hr, lookup_insert]
        · have hpos : 0 < s1.limit := Nat.succ_pos _
          rw [hr, lookup_shift_of_lt hpos (UInt64.add_zero _).symm, lookup_insert]
      obtain ⟨t, ht⟩ := foldlM_take ha (N / 2)
      have hother := recover_ne_of_recent hN (headers.take (N / 2)) (d := 0) (by simp)
        (follows_take (N / 2) ((UInt64.add_zero _).symm ▸ hfollows.2)) (hsize1.take (N / 2))
        ht hlook
      rw [drop_zero, take_succ_cons, nodup_cons]
      refine ⟨fun hmem => ?_, (hwindows 0).sublist ?_⟩
      · have hok : (.ok a : Except CliqueError Address) ∈ (headers.take (N / 2)).map recover := by
          rw [map_take, hmap, ← map_take]
          exact mem_map_of_mem hmem
        obtain ⟨x, hx, hxa⟩ := mem_map.mp hok
        exact hother x hx hxa
      · exact take_sublist_take_left (Nat.le_succ _)

/-! ## The recent signers of a snapshot -/

/-- The recent signers after block `n` are those of some of the last `limit` blocks. -/
def Windowed (n : Nat) (s : Snapshot) : Prop :=
  ∀ k a, s.recents.lookup k = some a → k.toNat ≤ n ∧ n + 1 ≤ k.toNat + s.limit

theorem toNat_sub_ofNat (h : limit ≤ number.toNat) :
    (number - UInt64.ofNat limit).toNat = number.toNat - limit := by
  have hlimit : (UInt64.ofNat limit).toNat = limit := by
    rw [UInt64.toNat_ofNat', Nat.mod_eq_of_lt (lt_of_le_of_lt h number.toNat_lt)]
  have hle : UInt64.ofNat limit ≤ number := UInt64.le_iff_toNat_le.mpr (hlimit.trans_le h)
  rw [UInt64.toNat_sub_of_le _ _ hle, hlimit]

theorem lookup_shift_eq_some {k : UInt64} (hk : number.toNat ≤ k.toNat + limit) :
    (shift recents limit number).lookup k = some a ↔
      recents.lookup k = some a ∧ number.toNat < k.toNat + limit := by
  unfold shift
  split_ifs with hlimit
  · have hsub := toNat_sub_ofNat hlimit
    by_cases heq : k = number - UInt64.ofNat limit
    · have hkn : k.toNat = number.toNat - limit := heq ▸ hsub
      rw [heq, lookup_erase, ← heq]
      constructor
      · exact fun h => absurd h (by simp)
      · exact fun h => absurd h.2 (by omega)
    · have hkn : k.toNat ≠ number.toNat - limit := fun h =>
        heq (UInt64.toNat_inj.mp (h.trans hsub.symm))
      rw [lookup_erase_ne heq]
      exact ⟨fun h => ⟨h, by omega⟩, fun h => h.1⟩
  · exact ⟨fun h => ⟨h, by omega⟩, fun h => h.1⟩

theorem lookup_of_lookup_shift {k : UInt64} (h : (shift recents limit number).lookup k = some a) :
    recents.lookup k = some a := by
  unfold shift at h
  split_ifs at h
  · by_cases heq : k = number - UInt64.ofNat limit
    · rw [heq, lookup_erase] at h
      cases h
    · rwa [lookup_erase_ne heq] at h
  · exact h

theorem lookup_applyHeader {k : UInt64} (ha : applyHeader config recover s header = .ok s')
    (h : s'.recents.lookup k = some a) :
    (k = header.numberU64 ∧ recover header = .ok a) ∨ s.recents.lookup k = some a := by
  obtain ⟨signer, hrec, -, -, -, -, hcases⟩ := applyHeader_spec ha
  have hinsert : ((shift s.recents s.limit header.numberU64).insert header.numberU64
      signer).lookup k = some a := by
    rcases hcases with ⟨hr, -⟩ | ⟨hr, -⟩
    · exact hr ▸ h
    · exact lookup_of_lookup_shift (hr ▸ h)
  by_cases heq : k = header.numberU64
  · rw [heq, lookup_insert] at hinsert
    exact .inl ⟨heq, Option.some.inj hinsert ▸ hrec⟩
  · rw [lookup_insert_of_ne _ heq] at hinsert
    exact .inr (lookup_of_lookup_shift hinsert)

theorem Windowed.applyHeader {n : Nat} (h : Windowed n s) (hn : header.numberU64.toNat = n + 1)
    (ha : applyHeader config recover s header = .ok s') : Windowed (n + 1) s' := by
  obtain ⟨signer, -, -, -, -, -, hcases⟩ := applyHeader_spec ha
  -- the entries after the deletion and with the new one, for the old limit
  have hinsert : ∀ k a, ((shift s.recents s.limit header.numberU64).insert header.numberU64
      signer).lookup k = some a → k.toNat ≤ n + 1 ∧ n + 2 ≤ k.toNat + s.limit := by
    intro k a hk
    by_cases heq : k = header.numberU64
    · have hpos : 0 < s.limit := Nat.succ_pos _
      rw [heq]
      omega
    · rw [lookup_insert_of_ne _ heq] at hk
      obtain ⟨hle, hwin⟩ := h k a (lookup_of_lookup_shift hk)
      obtain ⟨-, hlt⟩ := (lookup_shift_eq_some (by omega)).mp hk
      omega
  intro k a hk
  rcases hcases with ⟨hr, hsame | henroll⟩ | ⟨hr, hdismiss⟩
  · have hlimit : s'.limit = s.limit := by rw [limit, limit, hsame]
    rw [hr] at hk
    rw [hlimit]
    exact hinsert k a hk
  · have hlimit : s.limit ≤ s'.limit := by
      have hcard : s.signers.card ≤ s'.signers.card :=
        henroll ▸ card_le_card (subset_insert _ _)
      unfold limit
      omega
    rw [hr] at hk
    have hwin := hinsert k a hk
    omega
  · have hlimit : s.limit ≤ s'.limit + 1 := by
      have hcard : s.signers.card - 1 ≤ s'.signers.card := hdismiss ▸ pred_card_le_card_erase
      unfold limit
      omega
    rw [hr] at hk
    have hwin := hinsert k a (lookup_of_lookup_shift hk)
    obtain ⟨-, hlt⟩ := (lookup_shift_eq_some (by omega)).mp hk
    omega

theorem Windowed.foldlM (headers : List Header) (h : Windowed n.toNat s)
    (hfollows : follows n headers = true) (hn : n.toNat + headers.length < 2 ^ 64)
    (ha : headers.foldlM (Snapshot.applyHeader config recover) s = .ok s') :
    Windowed (n.toNat + headers.length) s' := by
  induction headers generalizing s n with
  | nil =>
    cases ha
    exact h
  | cons header headers ih =>
    obtain ⟨s1, h1, ha⟩ := Run.foldlM_cons_eq_ok ha
    rw [length_cons] at hn ⊢
    simp only [follows, Bool.and_eq_true, decide_eq_true_eq] at hfollows
    have hnumber : header.numberU64.toNat = n.toNat + 1 := by
      rw [hfollows.1, UInt64.toNat_add, Nat.mod_eq_of_lt]
      · rfl
      · exact lt_of_le_of_lt (Nat.add_le_add_left (Nat.le_add_left 1 _) _) hn
    have h2 := ih (hnumber ▸ h.applyHeader hnumber h1) hfollows.2 (by omega) ha
    rwa [hnumber, Nat.add_right_comm, Nat.add_assoc] at h2

/-- The comparison of block numbers by which `verifySeal` finds a signer too recent. -/
def RecentForSeal (s : Snapshot) (number : UInt64) (signer : Address) : Prop :=
  ∃ seen ∈ s.recents.keys, s.recents.lookup seen = some signer ∧
    seen > number - UInt64.ofNat s.limit

/-- The signer is among those that `apply` has not deleted. -/
def RecentForApply (s : Snapshot) (number : UInt64) (signer : Address) : Prop :=
  ∃ n ∈ (shift s.recents s.limit number).keys,
    (shift s.recents s.limit number).lookup n = some signer

section Recent

variable (signer : Address) (hwin : Windowed s.number.toNat s)
  (hnumber : header.numberU64.toNat = s.number.toNat + 1)
include hwin hnumber

theorem recent_iff (hlimit : s.limit ≤ header.numberU64.toNat) :
    RecentForSeal s header.numberU64 signer ↔ RecentForApply s header.numberU64 signer := by
  have hsub := toNat_sub_ofNat hlimit
  constructor
  · rintro ⟨seen, -, hseen, hgt⟩
    have hgt : header.numberU64.toNat - s.limit < seen.toNat := hsub ▸ UInt64.lt_iff_toNat_lt.mp hgt
    have hkept : (shift s.recents s.limit header.numberU64).lookup seen = some signer :=
      (lookup_shift_eq_some (by omega)).mpr ⟨hseen, by omega⟩
    exact ⟨seen, mem_keys.mpr (mem_of_lookup_eq_some hkept), hkept⟩
  · rintro ⟨n, -, hn⟩
    have hold := lookup_of_lookup_shift hn
    have hwin := (hwin n signer hold).2
    obtain ⟨-, hlt⟩ := (lookup_shift_eq_some (by omega)).mp hn
    refine ⟨n, mem_keys.mpr (mem_of_lookup_eq_some hold), hold, ?_⟩
    rw [gt_iff_lt, UInt64.lt_iff_toNat_lt, hsub]
    omega

/-- Below the limit the difference of the numbers wraps, and nobody is too recent. -/
theorem not_recentForSeal (hlimit : header.numberU64.toNat < s.limit)
    (hcard : s.signers.card < 2 ^ 63) : ¬RecentForSeal s header.numberU64 signer := by
  rintro ⟨seen, -, hseen, hgt⟩
  have hle := (hwin seen signer hseen).1
  have hlim : s.limit = s.signers.card / 2 + 1 := rfl
  have hofNat : (UInt64.ofNat s.limit).toNat = s.limit := by
    rw [UInt64.toNat_ofNat', Nat.mod_eq_of_lt (by omega)]
  have hwrap := UInt64.toNat_sub header.numberU64 (UInt64.ofNat s.limit)
  have hlt := UInt64.lt_iff_toNat_lt.mp hgt
  rw [hwrap, hofNat] at hlt
  omega

/-- The two rules treat a signer alike exactly from the limit on, or if it has not sealed one of
the last blocks. -/
theorem recent_rules_iff (hcard : s.signers.card < 2 ^ 63) :
    (RecentForSeal s header.numberU64 signer ↔ RecentForApply s header.numberU64 signer) ↔
      s.limit ≤ header.numberU64.toNat ∨ ∀ k, s.recents.lookup k ≠ some signer := by
  by_cases hlimit : s.limit ≤ header.numberU64.toNat
  · exact iff_of_true (recent_iff signer hwin hnumber hlimit) (Or.inl hlimit)
  · have hnot := not_recentForSeal signer hwin hnumber (Nat.not_le.mp hlimit) hcard
    have hshift : shift s.recents s.limit header.numberU64 = s.recents := if_neg hlimit
    rw [iff_false_left hnot, or_iff_right hlimit, RecentForApply, hshift]
    constructor
    · exact fun h k hk => h ⟨k, mem_keys.mpr (mem_of_lookup_eq_some hk), hk⟩
    · rintro h ⟨k, -, hk⟩
      exact h k hk

end Recent

/-! ## A signer is left -/

/-- The only signer votes itself out. -/
def Resigns (s : Snapshot) (header : Header) : Prop :=
  s.signers = {header.coinbase} ∧ header.nonce = nonceDropVote

/-- Nothing but its own vote removes the only signer: there is no other vote about it. -/
theorem nonempty_applyHeader (h : s.Exact) (ha : applyHeader config recover s header = .ok s')
    (hstay : ¬ Resigns s header) : s'.signers.Nonempty := by
  obtain ⟨signer, -, hmem, -, -, -, ⟨-, hs | hs⟩ | ⟨-, hs⟩⟩ := applyHeader_spec ha
  · exact ⟨signer, hs ▸ hmem⟩
  · exact ⟨signer, hs ▸ mem_insert_of_mem hmem⟩
  · by_contra hempty
    rw [not_nonempty_iff_eq_empty, hs, erase_eq_empty_iff] at hempty
    have honly := hempty.resolve_left (ne_empty_of_mem hmem)
    obtain ⟨signer, authorize, hcheck, hvote, rfl⟩ := applyHeader_eq_ok ha
    obtain ⟨-, hmem, -⟩ := checkSigner_eq_ok hcheck
    obtain ⟨hdrop, hnew⟩ := (h.sealed config header.numberU64 signer).discardVote signer
      header.coinbase
    have hsigners : ((s.sealed config header.numberU64 signer).discardVote signer
        header.coinbase).signers = {header.coinbase} := by
      rw [discardVote_eq, sealed, clearVotes_eq]
      exact honly
    have hauth : authorize = true := by
      unfold voteOfNonce at hvote
      split_ifs at hvote with h1 h2
      · exact (Except.ok.inj hvote).symm
      · exact absurd ⟨honly, h2⟩ hstay
    rw [clearVotes_eq] at hmem
    obtain rfl : signer = header.coinbase := mem_singleton.mp (honly ▸ hmem)
    generalize (s.sealed config header.numberU64 header.coinbase).discardVote header.coinbase
      header.coinbase = d at *
    have hnone : d.tally.lookup header.coinbase = none := by
      rw [hdrop.tallied.recount, recount, if_pos]
      simp only [countP_eq_zero, decide_eq_true_eq]
      exact fun v hv hva => hnew v hv
        ⟨Finset.mem_singleton.mp (hsigners ▸ hdrop.voters v hv), hva⟩
    have hinvalid : d.validVote header.coinbase authorize = false := by
      simp [validVote, hsigners, hauth]
    rw [addVote_of_invalid _ _ hinvalid, settle, hnone] at hs
    simp [hsigners, honly] at hs

theorem exists_not_recent (hwin : Windowed n.toNat s) (hs : s.signers.Nonempty)
    (hn : n.toNat + 1 < 2 ^ 64) :
    ∃ a ∈ s.signers, ∀ k, (shift s.recents s.limit (n + 1)).lookup k ≠ some a := by
  have hnext : (n + 1).toNat = n.toNat + 1 := by
    rw [UInt64.toNat_add]
    exact Nat.mod_eq_of_lt hn
  have hkeys : ∀ k ∈ (shift s.recents s.limit (n + 1)).keys,
      k.toNat ∈ Finset.Ico (n.toNat + 2 - s.limit) (n.toNat + 1) := by
    intro k hk
    obtain ⟨a, ha⟩ := mem_iff.mp (mem_keys.mp hk)
    have hw := hwin k a (lookup_of_lookup_shift ha)
    have hlt := ((lookup_shift_eq_some (by omega)).mp ha).2
    rw [mem_Ico]
    omega
  have hpos := hs.card_pos
  have hlimit : s.limit = s.signers.card / 2 + 1 := rfl
  generalize shift s.recents s.limit (n + 1) = window at hkeys ⊢
  have hcard : window.keys.card ≤ _ :=
    card_le_card_of_injOn _ hkeys fun _ _ _ _ h => UInt64.toNat_inj.mp h
  rw [Nat.card_Ico] at hcard
  have hsealers : (window.keys.image fun k => (window.lookup k).getD []).card < s.signers.card :=
    lt_of_le_of_lt card_image_le (by omega)
  obtain ⟨a, ha, hnot⟩ := exists_mem_notMem_of_card_lt_card hsealers
  refine ⟨a, ha, fun k hk => hnot (mem_image.mpr ⟨k, ?_, by rw [hk]; rfl⟩)⟩
  exact mem_keys.mpr (mem_of_lookup_eq_some hk)

/-! ## The rule of `verifySeal` -/

/-- The two refusals of a signer. -/
def IsSignerError (err : CliqueError) : Prop := err = .unauthorizedSigner ∨ err = .recentlySigned

theorem applyHeader_eq_error (herr : IsSignerError err) :
    applyHeader config recover s header = .error err ↔
      ((s.clearVotes config header.numberU64).shiftRecents header.numberU64).checkSigner recover
        header = .error err := by
  simp only [applyHeader, bind, Except.bind]
  cases ((s.clearVotes config header.numberU64).shiftRecents header.numberU64).checkSigner recover
    header with
  | error e => simp
  | ok signer =>
    refine iff_of_false ?_ (by simp)
    unfold voteOfNonce
    rcases herr with rfl | rfl <;> split_ifs <;> simp

theorem checkSeal_eq_ok {signer : Address} {inturn : Bool} (hsig : c.signatures header = .ok signer)
    (hmem : signer ∈ s.signers)
    (hrecent : ¬ ∃ seen ∈ s.recents.keys, s.recents.lookup seen = some signer ∧
      seen > header.numberU64 - UInt64.ofNat s.limit)
    (hturn : s.inturn header.numberU64 signer = some inturn)
    (hdiff : header.difficulty = if inturn then diffInTurn else diffNoTurn) :
    c.checkSeal s header = .ok () := by
  rw [checkSeal, hsig]
  dsimp only
  rw [if_neg (not_not.mpr hmem), if_neg hrecent, hturn]
  dsimp only
  rw [if_neg (not_not.mpr hdiff)]

variable [HashFns]

/-- The snapshots of an engine: a list of signers with headers applied to it, as many as there
are block numbers. -/
def Reached (c : Clique) (snap : Snapshot) : Prop :=
  ∃ number hash signers headers, number.toNat + headers.length < 2 ^ 64 ∧
    apply c.config c.signatures (newSnapshot number hash signers) headers = .ok snap

theorem windowed_apply {hash : Hash} {signers : List Address}
    (hlen : number.toNat + headers.length < 2 ^ 64)
    (ha : apply config recover (newSnapshot number hash signers) headers = .ok s) :
    Windowed s.number.toNat s := by
  obtain ⟨hfollows, t, ht, rfl⟩ := apply_eq_ok.mp ha
  have hnew : Windowed number.toNat (newSnapshot number hash signers) := by
    intro k a hk
    rw [newSnapshot, lookup_empty] at hk
    cases hk
  have hnumber : (number + UInt64.ofNat headers.length).toNat = number.toNat + headers.length := by
    rw [UInt64.toNat_add, UInt64.toNat_ofNat', Nat.add_mod_mod, Nat.mod_eq_of_lt hlen]
  have hwin := hnew.foldlM headers hfollows hlen ht
  rw [← hnumber] at hwin
  exact hwin

theorem apply_singleton_eq_error (hnumber : header.numberU64 = s.number + 1) :
    apply config recover s [header] = .error err ↔
      applyHeader config recover s header = .error err := by
  have hfollows : follows s.number [header] = true := by simp [follows, hnumber]
  simp only [apply, getLast?_singleton, hfollows, Bool.true_eq_false, if_false,
    foldlM_cons, foldlM_nil, bind, Except.bind]
  cases applyHeader config recover s header with
  | error e => exact Iff.rfl
  | ok t => simp [pure, Except.pure]

omit [HashFns] in
theorem checkSigner_cleared :
    ((s.clearVotes config header.numberU64).shiftRecents header.numberU64).checkSigner recover
        header =
      ({ s with recents := shift s.recents s.limit header.numberU64 }).checkSigner recover
        header := by
  rw [clearVotes_eq]
  rfl

section Authorized

variable {signer : Address} (hsig : c.signatures header = .ok signer) (herr : IsSignerError err)
include hsig herr

omit [HashFns] in
theorem checkSeal_eq_error (hmem : signer ∈ s.signers) : c.checkSeal s header = .error err ↔
    RecentForSeal s header.numberU64 signer ∧ err = .recentlySigned := by
  rw [checkSeal, hsig]
  dsimp only
  rw [if_neg (not_not.mpr hmem)]
  unfold RecentForSeal
  by_cases hr : ∃ seen ∈ s.recents.keys, s.recents.lookup seen = some signer ∧
      seen > header.numberU64 - UInt64.ofNat s.limit
  · rw [if_pos hr, and_iff_right hr, Except.error.injEq, eq_comm]
  · rw [if_neg hr]
    refine iff_of_false ?_ fun h => hr h.1
    rcases herr with rfl | rfl <;> split <;> [skip; split_ifs; skip; split_ifs] <;> simp

theorem apply_singleton_eq_signerError (hnext : header.numberU64 = s.number + 1)
    (hmem : signer ∈ s.signers) : apply c.config c.signatures s [header] = .error err ↔
      RecentForApply s header.numberU64 signer ∧ err = .recentlySigned := by
  rw [apply_singleton_eq_error hnext, applyHeader_eq_error herr, checkSigner_cleared]
  unfold checkSigner RecentForApply
  rw [hsig]
  dsimp only
  rw [if_neg (not_not.mpr hmem)]
  by_cases hr : ∃ n ∈ (shift s.recents s.limit header.numberU64).keys,
      (shift s.recents s.limit header.numberU64).lookup n = some signer
  · rw [if_pos hr, and_iff_right hr, Except.error.injEq, eq_comm]
  · rw [if_neg hr]
    exact iff_of_false (by simp) fun h => hr h.1

end Authorized

/-- `verifySeal` and `apply` refuse a signer for the same reason exactly if the two rules treat an
authorized signer alike. -/
theorem checkSeal_agrees_iff (hnext : header.numberU64 = s.number + 1) :
    (∀ err, IsSignerError err → (c.checkSeal s header = .error err ↔
        apply c.config c.signatures s [header] = .error err)) ↔
      ∀ signer ∈ s.signers, c.signatures header = .ok signer →
        (RecentForSeal s header.numberU64 signer ↔ RecentForApply s header.numberU64 signer) := by
  constructor
  · intro h signer hmem hsig
    have hsame := h .recentlySigned (Or.inr rfl)
    rwa [checkSeal_eq_error hsig (Or.inr rfl) hmem,
      apply_singleton_eq_signerError hsig (Or.inr rfl) hnext hmem, and_iff_left rfl,
      and_iff_left rfl] at hsame
  · intro h err herr
    cases hsig : c.signatures header with
    | error e =>
      rw [apply_singleton_eq_error hnext, applyHeader_eq_error herr, checkSeal, checkSigner, hsig]
      simp
    | ok signer =>
      by_cases hmem : signer ∈ s.signers
      · rw [checkSeal_eq_error hsig herr hmem,
          apply_singleton_eq_signerError hsig herr hnext hmem, h signer hmem hsig]
      · rw [apply_singleton_eq_error hnext, applyHeader_eq_error herr, checkSigner_cleared,
          checkSeal, checkSigner, hsig]
        simp [hmem]

/-! ## The engine -/

theorem verifySeal_eq {c' : Clique} {chain : HeaderReader} {parents : List Header} {snap : Snapshot}
    (hzero : header.numberU64 ≠ 0)
    (hsnap : c.snapshot chain (header.numberU64 - 1) header.parentHash parents = (.ok snap, c')) :
    (c.verifySeal chain header parents).1 = c.checkSeal snap header := by
  have hsame : c'.checkSeal snap header = c.checkSeal snap header := by
    rw [checkSeal, checkSeal, (snapshot_config hsnap).2]
  rw [verifySeal, if_neg hzero, hsnap]
  exact hsame

/-- **The two seal rules.** With a fixed number of signers no signer is twice in a window; and on
top of a reached snapshot the two rules agree exactly from block number `limit` on, or if the
signer is not among the recent ones. -/
theorem seal_rules_agree (c : Clique) :
    (∀ (N : Nat) (s s' : Snapshot) (headers : List Header), N < 2 ^ 63 →
      apply c.config c.signatures s headers = .ok s' →
      (∀ k t, apply c.config c.signatures s (headers.take k) = .ok t → t.signers.card = N) →
      ∃ signers : List Address, headers.map c.signatures = signers.map .ok ∧
        ∀ i, ((signers.drop i).take (N / 2 + 1)).Nodup) ∧
    ∀ (chain : HeaderReader) (header : Header) (parents : List Header) (snap : Snapshot)
      (c' : Clique),
      c.snapshot chain (header.numberU64 - 1) header.parentHash parents = (.ok snap, c') →
      c.Reached snap → header.numberU64.toNat = snap.number.toNat + 1 →
      snap.signers.card < 2 ^ 63 →
      ((∀ err, IsSignerError err → ((c.verifySeal chain header parents).1 = .error err ↔
          apply c.config c.signatures snap [header] = .error err)) ↔
        snap.limit ≤ header.numberU64.toNat ∨ ∀ signer ∈ snap.signers,
          c.signatures header = .ok signer → ∀ k, snap.recents.lookup k ≠ some signer) := by
  constructor
  · intro N s s' headers hN ha hsize
    obtain ⟨hfollows, t, ht, -⟩ := apply_eq_ok.mp ha
    refine window_nodup hN headers hfollows (fun k u hu => ?_) ht
    have happly := apply_eq_ok.mpr ⟨follows_take k hfollows, u, hu, rfl⟩
    have hcard := hsize k _ happly
    exact hcard
  · intro chain header parents snap c' hsnap hreach hnumber hcard
    have hzero : header.numberU64 ≠ 0 := by
      intro h
      rw [h] at hnumber
      exact Nat.succ_ne_zero _ hnumber.symm
    have hnext : header.numberU64 = snap.number + 1 := by
      apply UInt64.toNat_inj.mp
      rw [UInt64.toNat_add, hnumber, Nat.mod_eq_of_lt (hnumber ▸ header.numberU64.toNat_lt)]
      rfl
    rw [verifySeal_eq hzero hsnap, checkSeal_agrees_iff hnext]
    obtain ⟨_, _, _, _, hlen, ha⟩ := hreach
    have hrules := fun signer => recent_rules_iff signer (windowed_apply hlen ha) hnumber hcard
    simp only [hrules]
    constructor
    · intro h
      refine or_iff_not_imp_left.mpr fun hlimit signer hmem hsig => ?_
      exact (h signer hmem hsig).resolve_left hlimit
    · rintro (hlimit | h) signer hmem hsig
      · exact Or.inl hlimit
      · exact Or.inr (h signer hmem hsig)

/-- **As long as the only signer does not vote itself out, there is one.** Then the turns are
defined, and one of the signers may seal the next block. -/
theorem apply_keeps_signer (config : CliqueConfig)
    (recover : Header → Except CliqueError Address) (hash : Hash) (signers : List Address)
    (hsigners : signers ≠ []) (headers : List Header) (snap : Snapshot)
    (ha : apply config recover (newSnapshot 0 hash signers) headers = .ok snap)
    (hstay : ∀ before header after t, headers = before ++ header :: after →
      apply config recover (newSnapshot 0 hash signers) before = .ok t → ¬ Resigns t header) :
    snap.signers.Nonempty ∧ (∀ number signer, (snap.inturn number signer).isSome) ∧
      (headers.length + 1 < 2 ^ 64 → ∃ a ∈ snap.signers, ∀ k,
        (shift snap.recents snap.limit (snap.number + 1)).lookup k ≠ some a) := by
  have hne : snap.signers.Nonempty := by
    induction headers using reverseRecOn generalizing snap with
    | nil =>
      cases ha
      exact toFinset_nonempty_iff _ |>.mpr hsigners
    | append_singleton before header ih =>
      obtain ⟨t, ht, h1⟩ := apply_append_eq_ok.mp ha
      obtain ⟨-, u, hu, rfl⟩ := apply_eq_ok.mp h1
      have hexact := apply_exact (newSnapshot_exact hash signers) ht
      have h2 : applyHeader config recover t header = .ok u := by simpa using hu
      show u.signers.Nonempty
      exact nonempty_applyHeader hexact h2 (hstay before header [] t rfl ht)
  refine ⟨hne, fun number signer => ?_, fun hlen => ?_⟩
  · have hpos : snap.sortedSigners.length ≠ 0 := by
      rw [sortedSigners, length_sort]
      exact hne.card_ne_zero
    simp [inturn, hpos]
  · have hnumber : snap.number.toNat = headers.length := by
      obtain ⟨-, t, -, rfl⟩ := apply_eq_ok.mp ha
      show (0 + UInt64.ofNat headers.length).toNat = headers.length
      rw [UInt64.zero_add, UInt64.toNat_ofNat', Nat.mod_eq_of_lt (by omega)]
    have hwin := windowed_apply (by rw [UInt64.toNat_zero]; omega) ha
    exact exists_not_recent hwin hne (hnumber.symm ▸ hlen)

end GethComments.Clique

namespace GethComments.Clique

open Snapshot

attribute [local instance] HashFns.plain

/-! ## Early blocks -/

def noHeaders : HeaderReader := ⟨none, [], fun _ _ => none, fun _ => none⟩

/-- An engine with a snapshot in memory, for headers whose extra-data is the signer. -/
def engineAt (snap : Snapshot) : Clique where
  config := ⟨15, 30000⟩
  db := fun _ => none
  recents := fun _ => some snap
  signatures := fun h => .ok h.extra

def sealedHeader (number : Nat) (signer : Address) : Header :=
  { (default : Header) with number, extra := signer, nonce := nonceDropVote, difficulty := 1 }

def firstSealed (signers : List Address) : Snapshot where
  number := 1
  hash := (sealedHeader 1 [1]).hash
  signers := signers.toFinset
  recents := (∅ : Finmap fun _ : UInt64 => Address).insert 1 [1]
  votes := []
  tally := ∅

theorem reached_firstSealed (signers : List Address)
    (h : apply ⟨15, 30000⟩ (fun h => .ok h.extra) (newSnapshot 0 [] signers) [sealedHeader 1 [1]] =
      .ok (firstSealed signers)) : (engineAt (firstSealed signers)).Reached (firstSealed signers) :=
  ⟨0, [], signers, [sealedHeader 1 [1]], by decide, h⟩

theorem snapshot_engineAt (snap : Snapshot) (number : UInt64) (hash : Hash) :
    ((engineAt snap).snapshot noHeaders number hash []).1 = .ok snap := by
  have hfind : (engineAt snap).findBase noHeaders number.toNat hash [] [] =
      .ok (engineAt snap, snap, []) := by
    unfold findBase
    rfl
  rw [snapshot, hfind]
  rfl

/-- The signers of three blocks by three signers in turn. -/
def inTurns : List Header := [sealedHeader 1 [1], sealedHeader 2 [2], sealedHeader 3 [1]]

theorem seal_rules_agree_inTurns :
    (∃ signers : List Address, inTurns.map (fun h => (.ok h.extra : Except CliqueError Address)) =
        signers.map .ok ∧ ∀ i, ((signers.drop i).take 2).Nodup) ∧
      ((engineAt (firstSealed [[1], [2], [3]])).verifySeal noHeaders (sealedHeader 2 [1]) []).1 =
        .error .recentlySigned := by
  have hfirst : apply ⟨15, 30000⟩ (fun h => .ok h.extra) (newSnapshot 0 [] [[1], [2], [3]])
      [sealedHeader 1 [1]] = .ok (firstSealed [[1], [2], [3]]) := by decide
  have hall : (apply ⟨15, 30000⟩ (fun h => .ok h.extra) (newSnapshot 0 [] [[1], [2], [3]])
      inTurns).toOption.isSome = true := by decide
  have hsizes : ∀ k, k < 4 → ((apply ⟨15, 30000⟩ (fun h => .ok h.extra)
      (newSnapshot 0 [] [[1], [2], [3]]) (inTurns.take k)).toOption.map
        fun t => t.signers.card) = some 3 := by decide
  have hrefused : apply ⟨15, 30000⟩ (fun h => .ok h.extra) (firstSealed [[1], [2], [3]])
      [sealedHeader 2 [1]] = .error .recentlySigned := by decide
  have hsized : ∀ k t, apply ⟨15, 30000⟩ (fun h => .ok h.extra) (newSnapshot 0 [] [[1], [2], [3]])
      (inTurns.take k) = .ok t → t.signers.card = 3 := by
    intro k t ht
    have hmin : inTurns.take k = inTurns.take (min k 3) := by
      rw [← List.take_take, List.take_of_length_le (l := inTurns) (i := 3) le_rfl]
    have hcard := hsizes (min k 3) (by omega)
    rw [← hmin, ht] at hcard
    exact Option.some.inj hcard
  obtain ⟨hwindows, hrules⟩ := seal_rules_agree (engineAt (firstSealed [[1], [2], [3]]))
  constructor
  · cases happly : apply ⟨15, 30000⟩ (fun h => .ok h.extra) (newSnapshot 0 [] [[1], [2], [3]])
        inTurns with
    | error err => rw [happly] at hall; cases hall
    | ok s' => exact hwindows 3 _ s' inTurns (by decide) happly hsized
  · have hagree := (hrules noHeaders (sealedHeader 2 [1]) [] (firstSealed [[1], [2], [3]]) _
      (Prod.ext (snapshot_engineAt _ _ _) rfl) (reached_firstSealed _ hfirst) (by decide)
      (by decide)).mpr (Or.inl (by decide))
    exact (hagree .recentlySigned (Or.inr rfl)).mpr hrefused

/-- With four signers the second block is below the limit, and the difference of the numbers
wraps: the signer of the first block may seal the second one as well, which `apply` then does
not accept. -/
theorem seal_rules_differ_early : let snap := firstSealed [[1], [2], [3], [4]]
    let header := sealedHeader 2 [1]
    (engineAt snap).Reached snap ∧
      ((engineAt snap).snapshot noHeaders (header.numberU64 - 1) header.parentHash []).1 =
        .ok snap ∧
      header.numberU64.toNat = snap.number.toNat + 1 ∧ header.numberU64.toNat < snap.limit ∧
      ((engineAt snap).verifySeal noHeaders header []).1 = .ok () ∧
      apply (engineAt snap).config (engineAt snap).signatures snap [header] =
        .error .recentlySigned := by
  have hfirst : apply ⟨15, 30000⟩ (fun h => .ok h.extra) (newSnapshot 0 [] [[1], [2], [3], [4]])
      [sealedHeader 1 [1]] = .ok (firstSealed [[1], [2], [3], [4]]) := by decide
  have hrefused : apply ⟨15, 30000⟩ (fun h => .ok h.extra) (firstSealed [[1], [2], [3], [4]])
      [sealedHeader 2 [1]] = .error .recentlySigned := by decide
  have hsorted : (firstSealed [[1], [2], [3], [4]]).sortedSigners = [[1], [2], [3], [4]] :=
    (List.toFinset_sort (· ≤ ·) (by decide)).mpr (by decide)
  have hturn : (firstSealed [[1], [2], [3], [4]]).inturn 2 [1] = some false := by
    rw [inturn, hsorted]
    rfl
  refine ⟨reached_firstSealed _ hfirst, snapshot_engineAt _ _ _, by decide, by decide, ?_, hrefused⟩
  have hrecent : ¬ ∃ seen ∈ (firstSealed [[1], [2], [3], [4]]).recents.keys,
      (firstSealed [[1], [2], [3], [4]]).recents.lookup seen = some [1] ∧
        seen > (sealedHeader 2 [1]).numberU64 -
          UInt64.ofNat (firstSealed [[1], [2], [3], [4]]).limit := by decide
  rw [verifySeal_eq (by decide) (Prod.ext (snapshot_engineAt _ _ _) rfl)]
  exact checkSeal_eq_ok rfl (by decide) hrecent hturn rfl

def loneVote (coinbase : Address) (nonce : Bytes) : Except CliqueError Snapshot :=
  apply ⟨15, 30000⟩ (fun h => .ok h.extra) (newSnapshot 0 [] [[1]]) [ballot 1 [1] coinbase nonce]

theorem apply_keeps_signer_pair :
    ∃ snap, loneVote [2] nonceAuthVote = .ok snap ∧ snap.signers.Nonempty := by
  have hrun : (loneVote [2] nonceAuthVote).isOk = true := by decide
  cases h : loneVote [2] nonceAuthVote with
  | error err => rw [h] at hrun; cases hrun
  | ok snap =>
    refine ⟨snap, rfl, (apply_keeps_signer _ _ [] _ (by decide) _ snap h ?_).1⟩
    rintro before header after t hsplit - ⟨-, hnonce⟩
    have hmem : header ∈ [ballot 1 [1] [2] nonceAuthVote] := hsplit ▸ by simp
    rw [List.mem_singleton.mp hmem] at hnonce
    exact absurd hnonce (by decide)

theorem only_signer_resigns :
    ∃ snap, loneVote [1] nonceDropVote = .ok snap ∧ snap.inturn 2 [1] = none ∧
      ∀ config recover header t, applyHeader config recover snap header ≠ .ok t := by
  have hrun : (loneVote [1] nonceDropVote).toOption.map Snapshot.signers = some ∅ := by decide
  cases h : loneVote [1] nonceDropVote with
  | error err => rw [h] at hrun; cases hrun
  | ok snap =>
    rw [h] at hrun
    have hnone : snap.signers = ∅ := Option.some.inj hrun
    refine ⟨snap, rfl, by simp [inturn, sortedSigners, hnone], fun config recover header t ht => ?_⟩
    obtain ⟨signer, -, hmem, -⟩ := applyHeader_spec ht
    simp [hnone] at hmem

end GethComments.Clique
