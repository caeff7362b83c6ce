import GethComments.Core.HeaderChain

/-!
# Ancestors of a header

`GetAncestor` of `core/headerchain.go`. The search goes from parent to parent until it meets the
canonical chain, and reads the ancestor from the index there.

* `Consistent`: the index answers with the hashes of the canonical chain;
* `getAncestor_eq`: the result is that of going from parent to parent, unless the budget ends
  before the canonical chain is met.
-/

namespace GethComments.HeaderChain

/-- `common.Hash{}` -/
def noHash : Hash := List.replicate 32 0

def readCanonicalHash (hc : HeaderChain) (number : UInt64) : Hash :=
  (hc.canonical number).getD noHash

/-- The loop of `GetAncestor`: the ancestor, and what is left of `maxNonCanonical`. -/
def ancestorLoop (hc : HeaderChain) : Nat → Hash → UInt64 → UInt64 → (Hash × UInt64) × UInt64
  | 0, hash, number, max => ((hash, number), max)
  | ancestor + 1, hash, number, max =>
    if hc.readCanonicalHash number = hash then
      let number := number - UInt64.ofNat (ancestor + 1)
      ((hc.readCanonicalHash number, number), max)
    else if max = 0 then ((noHash, 0), max)
    else
      match hc.getHeader hash number with
      | none => ((noHash, 0), max - 1)
      | some header => hc.ancestorLoop ancestor header.parentHash (number - 1) (max - 1)

def getAncestor (hc : HeaderChain) (hash : Hash) (number ancestor max : UInt64) :
    (Hash × UInt64) × UInt64 :=
  if ancestor > number then ((noHash, 0), max)
  else if ancestor = 1 then
    match hc.getHeader hash number with
    | none => ((noHash, 0), max)
    | some header => ((header.parentHash, number - 1), max)
  else hc.ancestorLoop ancestor.toNat hash number max

section

variable [HashFns] {g h : Header} {T : Set Header} {hc : HeaderChain} {hs cs : List Header}

/-- At the number of a stored header the index has its hash if it is in the canonical chain, and
only then. -/
def Consistent (hc : HeaderChain) (T : Set Header) (cs : List Header) : Prop :=
  ∀ h ∈ T, hc.readCanonicalHash h.numberU64 = h.hash ↔ h ∈ cs

/-- None of the first `max + 1` headers is canonical, and there are `n` to go. -/
def Exhausted (hs cs : List Header) (n max : Nat) : Prop :=
  ∀ j ≤ max, j < n ∧ ∀ b, hs[j]? = some b → b ∉ cs

omit [HashFns] in
theorem exhausted_cons {n max : Nat} (hh : h ∉ cs) :
    Exhausted (h :: hs) cs (n + 1) (max + 1) ↔ Exhausted hs cs n max := by
  constructor
  · intro hex j hj
    obtain ⟨hlt, hmem⟩ := hex (j + 1) (by omega)
    exact ⟨by omega, hmem⟩
  · intro hex j hj
    cases j with
    | zero => exact ⟨by omega, fun b hb => by cases hb; exact hh⟩
    | succ j =>
      obtain ⟨hlt, hmem⟩ := hex j (by omega)
      exact ⟨by omega, hmem⟩

/-- What a search from the first of the headers has to return. -/
structure Finds (hs cs : List Header) (n max : Nat) (res : Hash × UInt64) : Prop where
  found : ¬ Exhausted hs cs n max → ∃ a, hs[n]? = some a ∧ res = (a.hash, a.numberU64)
  exhausted : Exhausted hs cs n max → res = (noHash, 0)

theorem exists_ancestor (hT : HeaderTree g T) (hh : h ∈ T) (hhs : Ancestry g T h hs) {n : Nat}
    (hn : n ≤ h.number) :
    ∃ a ∈ T, hs[n]? = some a ∧ a.numberU64 = h.numberU64 - UInt64.ofNat n := by
  obtain ⟨a, ha, hlevel⟩ := hhs.exists_getElem? hT.isTree hn
  refine ⟨a, hhs.mem hh (List.mem_of_getElem? ha), ha, ?_⟩
  rw [Header.numberU64, Header.numberU64, ← hlevel, UInt64.ofNat_add, UInt64.add_sub_cancel]

theorem mem_canonical (hT : HeaderTree g T) {c a : Header} (hcs : Ancestry g T c cs)
    (hhs : Ancestry g T h hs) (hh : h ∈ cs) (ha : a ∈ hs) : a ∈ cs := by
  obtain ⟨above, rest, rfl⟩ := List.append_of_mem hh
  rw [hhs.unique hT.isTree hcs.of_append] at ha
  exact List.mem_append_right _ ha

theorem ancestorLoop_finds (hT : HeaderTree g T)
    (hget : ∀ h ∈ T, hc.getHeader h.hash h.numberU64 = some h) {c : Header}
    (hcs : Ancestry g T c cs) (hcons : hc.Consistent T cs) (n : Nat) {h : Header}
    {hs : List Header} (hh : h ∈ T) (hhs : Ancestry g T h hs) (hn : n ≤ h.number) (max : UInt64) :
    Finds hs cs n max.toNat (hc.ancestorLoop n h.hash h.numberU64 max).1 := by
  induction n generalizing h hs max with
  | zero =>
    obtain ⟨rest, rfl⟩ := hhs.eq_cons
    exact ⟨fun _ => ⟨h, rfl, rfl⟩, fun hex => absurd (hex 0 (Nat.zero_le _)).1 (by simp)⟩
  | succ n ih =>
    obtain ⟨rest, rfl⟩ := hhs.eq_cons
    unfold ancestorLoop
    by_cases hmem : h ∈ cs
    · rw [if_pos ((hcons h hh).mpr hmem)]
      refine ⟨fun _ => ?_, fun hex => absurd hmem ((hex 0 (Nat.zero_le _)).2 h rfl)⟩
      obtain ⟨a, haT, ha, hnum⟩ := exists_ancestor hT hh hhs hn
      have hacs := mem_canonical hT hcs hhs hmem (List.mem_of_getElem? ha)
      refine ⟨a, ha, ?_⟩
      dsimp only
      rw [← hnum, (hcons a haT).mpr hacs]
    · rw [if_neg fun heq => hmem ((hcons h hh).mp heq)]
      by_cases hmax : max = 0
      · rw [if_pos hmax, hmax]
        refine ⟨fun hex => absurd (fun j hj => ?_) hex, fun _ => rfl⟩
        obtain rfl : j = 0 := Nat.le_zero.mp hj
        exact ⟨by omega, fun b hb => by cases hb; exact hmem⟩
      · rw [if_neg hmax, hget h hh]
        -- Only the genesis has no parent, and its number is 0.
        cases hhs with
        | root => rw [hT.number_genesis] at hn; omega
        | @child _ p _ hp hchild hps =>
          have hpos : 1 ≤ max := by
            rw [UInt64.le_iff_toNat_le]
            exact Nat.one_le_iff_ne_zero.mpr fun h0 => hmax (UInt64.toNat_inj.mp h0)
          have hstep : max.toNat = (max - 1).toNat + 1 := by
            rw [UInt64.toNat_sub_of_le _ _ hpos]
            rw [UInt64.le_iff_toNat_le] at hpos
            exact (Nat.sub_add_cancel hpos).symm
          have hnum := hchild.2
          have hfinds := ih hp hps (by omega) (max - 1)
          rw [← hchild.1, ← Header.numberU64_sub_one hchild] at hfinds
          rw [hstep]
          exact ⟨fun hex => hfinds.found fun h => hex ((exhausted_cons hmem).mpr h),
            fun hex => hfinds.exhausted ((exhausted_cons hmem).mp hex)⟩

/-- The ancestor is that of going from parent to parent, and only a search that needs more steps
outside of the canonical chain than the budget has returns nothing. -/
theorem getAncestor_eq (hT : HeaderTree g T)
    (hget : ∀ h ∈ T, hc.getHeader h.hash h.numberU64 = some h) {c : Header}
    (hcs : Ancestry g T c cs) (hcons : hc.Consistent T cs) (hh : h ∈ T)
    (hhs : Ancestry g T h hs) {n : UInt64} (hn : n ≤ h.numberU64) (max : UInt64) :
    ∃ a, hs[n.toNat]? = some a ∧ a.numberU64 = h.numberU64 - n ∧
      ((hc.getAncestor h.hash h.numberU64 n max).1 = (a.hash, a.numberU64) ∨
        n ≠ 1 ∧ Exhausted hs cs n.toNat max.toNat ∧
          (hc.getAncestor h.hash h.numberU64 n max).1 = (noHash, 0)) := by
  have hle : n.toNat ≤ h.number := by
    rw [Header.numberU64, UInt64.le_iff_toNat_le, UInt64.toNat_ofNat'] at hn
    exact hn.trans (Nat.mod_le _ _)
  obtain ⟨a, haT, ha, hnum⟩ := exists_ancestor hT hh hhs hle
  rw [UInt64.ofNat_toNat] at hnum
  refine ⟨a, ha, hnum, ?_⟩
  rw [getAncestor, if_neg (by simpa using hn)]
  by_cases h1 : n = 1
  · subst h1
    rw [if_pos rfl, hget h hh, hnum]
    cases hhs with
    | root => rw [hT.number_genesis] at hle; exact absurd hle (by decide)
    | child hp hchild hps =>
      obtain ⟨rest, rfl⟩ := hps.eq_cons
      obtain rfl : _ = a := Option.some.inj ha
      refine Or.inl ?_
      dsimp only
      rw [hchild.1]
  · rw [if_neg h1]
    have hfinds := ancestorLoop_finds hT hget hcs hcons n.toNat hh hhs hle max
    by_cases hex : Exhausted hs cs n.toNat max.toNat
    · exact Or.inr ⟨h1, hex, hfinds.exhausted hex⟩
    · obtain ⟨b, hb, hres⟩ := hfinds.found hex
      rw [ha] at hb
      cases hb
      exact Or.inl hres

end

section

attribute [local instance] HashFns.plain

/-- The header chain after a reorganisation. -/
def forkChain : HeaderChain :=
  ((newHeaderChain (long 0)).run forkWrites).getD (newHeaderChain default)

/-- Two steps down from a header that is not canonical, with a budget of two. -/
theorem getAncestor_eq_fork : (forkChain.getAncestor (long 2).hash (long 2).numberU64 2 2).1 =
    ((long 0).hash, (long 0).numberU64) := by
  have hget : ∀ h ∈ forkHeaders, forkChain.getHeader h.hash h.numberU64 = some h := by decide
  have hcons : ∀ h ∈ forkHeaders,
      forkChain.readCanonicalHash h.numberU64 = h.hash ↔ h ∈ [side, long 0] := by decide
  have hmem : ∀ i < 3, long i ∈ forkHeaders := by decide
  have hcs : Ancestry (long 0) {h | h ∈ forkHeaders} side [side, long 0] :=
    .child (hmem 0 (by omega)) ⟨rfl, rfl⟩ .root
  have hhs : Ancestry (long 0) {h | h ∈ forkHeaders} (long 2) [long 2, long 1, long 0] :=
    .child (hmem 1 (by omega)) (childOf_long 1)
      (.child (hmem 0 (by omega)) (childOf_long 0) .root)
  obtain ⟨a, ha, -, hres | ⟨-, hex, -⟩⟩ := getAncestor_eq headerTree_fork hget hcs hcons
    (hmem 2 (by omega)) hhs (n := 2) (by decide) 2
  · cases ha
    exact hres
  · exact absurd (hex 2 le_rfl).1 (by decide)

end

end GethComments.HeaderChain
