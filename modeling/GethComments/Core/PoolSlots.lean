import GethComments.Core.CommitmentLedger
import GethComments.Core.TxList

/-!
# The slots of the pool

An abstract view of the pool between the ledger and the lists of the source. Every account
has a pending and a queued slot for each nonce. An operation takes transactions out of their
slots, which are then in flight, and ends the flight of each by an event or by a new slot.

* `Inv`: with the transactions `F` in flight, the pooled transactions are the ones in the slots
  and in `F`, each in one place;
* `Inv.take`, `Inv.place`, `Inv.unlock`, `Inv.forget`, `Inv.lock`: the moves keep it.
-/

namespace GethComments

open Function List Ledger

inductive Place where
  | pending
  | queued
  deriving DecidableEq

structure PoolCore where
  signer : Transaction → Option Address
  slots : Place → Address → UInt64 → Option Transaction
  ledger : Ledger

namespace PoolCore

/-! ## Moves -/

def setList (c : PoolCore) (p : Place) (addr : Address) (f : UInt64 → Option Transaction) :
    PoolCore :=
  { c with slots := update c.slots p (update (c.slots p) addr f) }

def event [HashFns] (c : PoolCore) (e : CMEvent) : PoolCore := { c with ledger := c.ledger.step e }

/-- The slots `g` of an account are emptied of `removed`, which leaves `f`. -/
structure Splits (g : UInt64 → Option Transaction) (removed : List Transaction)
    (f : UInt64 → Option Transaction) : Prop where
  removed_mem : ∀ t ∈ removed, g t.accountNonce = some t ∧ f t.accountNonce = none
  rest : ∀ n t, f n = some t → g n = some t
  cases : ∀ n t, g n = some t → t ∈ removed ∨ f n = some t
  removed_apart : removed.Pairwise fun t u => t.accountNonce ≠ u.accountNonce

theorem splits_of_map {m rest : TxSortedMap} {removed : List Transaction}
    (h : m.Splits removed rest) : Splits m.get removed rest.get where
  removed_mem := fun _ ht => h.get_of_mem ht
  rest := fun _ _ ht => h.get_of_rest ht
  cases := fun _ _ ht => h.get_cases ht
  removed_apart := h.removed_apart

variable {q : Place} {a : Address} {n : UInt64}

section SetList

variable {c : PoolCore} {p : Place} {addr : Address} {t : Transaction}
  {f : UInt64 → Option Transaction}

@[simp] theorem slots_setList_self : (c.setList p addr f).slots p addr = f := by simp [setList]

theorem slots_setList_of_ne (h : ¬(q = p ∧ a = addr)) :
    (c.setList p addr f).slots q a = c.slots q a := by
  by_cases hq : q = p
  · subst hq
    have ha : a ≠ addr := fun ha => h ⟨rfl, ha⟩
    simp [setList, ha]
  · simp [setList, hq]

theorem slots_of_setList (hrest : ∀ n t, f n = some t → c.slots p addr n = some t)
    (ht : (c.setList p addr f).slots q a n = some t) :
    c.slots q a n = some t := by
  by_cases hqa : q = p ∧ a = addr
  · obtain ⟨rfl, rfl⟩ := hqa
    rw [slots_setList_self] at ht
    exact hrest n t ht
  · rwa [slots_setList_of_ne hqa] at ht

theorem setList_eq_none (hrest : ∀ n t, f n = some t → c.slots p addr n = some t)
    (h : c.slots q a n = none) :
    (c.setList p addr f).slots q a n = none := by
  cases hs : (c.setList p addr f).slots q a n with
  | none => rfl
  | some t =>
    rw [slots_of_setList hrest hs] at h
    cases h

theorem slots_fill_eq_some {m : UInt64} (hfree : c.slots p addr m = none) {u : Transaction} :
    (c.setList p addr (update (c.slots p addr) m (some t))).slots q a n = some u ↔
      (q = p ∧ a = addr ∧ n = m ∧ u = t) ∨ c.slots q a n = some u := by
  by_cases hqa : q = p ∧ a = addr
  · obtain ⟨rfl, rfl⟩ := hqa
    rw [slots_setList_self]
    by_cases hn : n = m
    · subst hn
      simp [hfree, eq_comm]
    · simp [hn]
  · rw [slots_setList_of_ne hqa]
    have hno : ¬(q = p ∧ a = addr ∧ n = m ∧ u = t) := fun hh => hqa ⟨hh.1, hh.2.1⟩
    simp [hno]

theorem slots_fill_eq_none {m : UInt64} (hfree : c.slots p addr m = none) (h : c.slots q a n = none)
    (hne : ¬(q = p ∧ a = addr ∧ n = m)) :
    (c.setList p addr (update (c.slots p addr) m (some t))).slots q a n = none := by
  rw [Option.eq_none_iff_forall_ne_some]
  intro u hu
  rcases (slots_fill_eq_some hfree).mp hu with ⟨hq, ha, hn, -⟩ | hu
  · exact hne ⟨hq, ha, hn⟩
  · rw [h] at hu
    cases hu

theorem setList_setList (c : PoolCore) (p : Place) (addr : Address)
    (f g : UInt64 → Option Transaction) :
    (c.setList p addr f).setList p addr g = c.setList p addr g := by
  simp [setList]

theorem splits_singleton {g : UInt64 → Option Transaction}
    (hg : ∀ n u, g n = some u → u.accountNonce = n) (ht : g n = some t) :
    Splits g [t] (update g n none) where
  removed_mem := by
    intro u hu
    cases mem_singleton.mp hu
    have hn := hg n t ht
    subst hn
    exact ⟨ht, update_self ..⟩
  rest := by
    intro m u hu
    by_cases hm : m = n
    · subst hm
      simp at hu
    · rwa [update_of_ne hm] at hu
  cases := by
    intro m u hu
    by_cases hm : m = n
    · subst hm
      rw [ht] at hu
      cases hu
      exact Or.inl mem_cons_self
    · exact Or.inr (by rwa [update_of_ne hm])
  removed_apart := pairwise_singleton _ t

end SetList

variable [HashFns]

/-! ## The invariant -/

structure Inv (F : List Transaction) (c : PoolCore) : Prop where
  listed : ∀ p a n t, c.slots p a n = some t →
    c.signer t = some a ∧ t.accountNonce = n ∧ c.ledger.Has t
  single : ∀ a n, c.slots .pending a n = none ∨ c.slots .queued a n = none
  flight : ∀ t ∈ F, c.ledger.Has t ∧
    ∃ a, c.signer t = some a ∧ ∀ p, c.slots p a t.accountNonce = none
  apart : F.Pairwise fun t u => c.signer t = c.signer u → t.accountNonce ≠ u.accountNonce
  covered : ∀ t, c.ledger.Has t → t ∈ F ∨ ∃ p a, c.slots p a t.accountNonce = some t
  recorded : c.ledger.Recorded

variable {c : PoolCore} {F removed : List Transaction} {p : Place} {addr : Address}
  {t : Transaction} {f : UInt64 → Option Transaction}

theorem Inv.eq_none_of_ne (h : Inv F c) (ht : c.slots p addr n = some t) (hq : q ≠ p) :
    c.slots q addr n = none := by
  cases p with
  | pending =>
    cases q with
    | pending => exact absurd rfl hq
    | queued => exact (h.single addr n).resolve_left (by simp [ht])
  | queued =>
    cases q with
    | pending => exact (h.single addr n).resolve_right (by simp [ht])
    | queued => exact absurd rfl hq

theorem Inv.ne_of_listed (h : Inv F c) {u : Transaction} (ht : t ∈ F)
    (hu : c.slots q a n = some u) : u ≠ t := by
  rintro rfl
  obtain ⟨hs, hn, -⟩ := h.listed q a n u hu
  obtain ⟨-, a', hs', hnone⟩ := h.flight u ht
  rw [hs] at hs'
  cases hs'
  rw [← hn, hnone q] at hu
  cases hu

theorem Inv.take (h : Inv F c) (hs : Splits (c.slots p addr) removed f) :
    Inv (removed ++ F) (c.setList p addr f) where
  listed := fun q a n t ht => h.listed q a n t (slots_of_setList hs.rest ht)
  single := fun a n => (h.single a n).imp (setList_eq_none hs.rest) (setList_eq_none hs.rest)
  flight := by
    intro t ht
    rcases mem_append.mp ht with ht | ht
    · obtain ⟨hg, hf⟩ := hs.removed_mem t ht
      obtain ⟨hsig, -, hhas⟩ := h.listed p addr _ t hg
      refine ⟨hhas, addr, hsig, fun q => ?_⟩
      by_cases hq : q = p
      · subst hq
        rwa [slots_setList_self]
      · exact setList_eq_none hs.rest (h.eq_none_of_ne hg hq)
    · obtain ⟨hhas, a, hsig, hnone⟩ := h.flight t ht
      exact ⟨hhas, a, hsig, fun q => setList_eq_none hs.rest (hnone q)⟩
  apart := by
    have hr : removed.Pairwise fun t u => c.signer t = c.signer u →
        t.accountNonce ≠ u.accountNonce := by
      refine hs.removed_apart.imp ?_
      intro t u hne _
      exact hne
    refine pairwise_append.mpr ⟨hr, h.apart, ?_⟩
    intro t ht u hu hsig hnonce
    obtain ⟨hg, -⟩ := hs.removed_mem t ht
    obtain ⟨ht', -, -⟩ := h.listed p addr _ t hg
    obtain ⟨-, a, hu', hnone⟩ := h.flight u hu
    -- both are of the account `addr`, where the slot of one is taken and the other's is free
    have ha : addr = a := Option.some.inj (ht'.symm.trans (hsig.trans hu'))
    rw [hnonce, ha, hnone p] at hg
    cases hg
  covered := by
    intro t ht
    rcases h.covered t ht with hF | ⟨q, a, hq⟩
    · exact Or.inl (mem_append_right _ hF)
    · by_cases hqa : q = p ∧ a = addr
      · obtain ⟨rfl, rfl⟩ := hqa
        rcases hs.cases _ t hq with hr | hf
        · exact Or.inl (mem_append_left _ hr)
        · exact Or.inr ⟨q, a, by rwa [slots_setList_self]⟩
      · exact Or.inr ⟨q, a, by rwa [slots_setList_of_ne hqa]⟩
  recorded := h.recorded

section

variable (h : Inv (t :: F) c)
include h

theorem Inv.place (p : Place) (hsig : c.signer t = some addr) :
    Inv F (c.setList p addr (update (c.slots p addr) t.accountNonce (some t))) := by
  obtain ⟨hhas, a, hsig', hnone⟩ := h.flight t mem_cons_self
  have ha : a = addr := Option.some.inj (hsig'.symm.trans hsig)
  subst ha
  obtain ⟨hapart, hF⟩ := pairwise_cons.mp h.apart
  constructor
  case listed =>
    intro q b n u hu
    rcases (slots_fill_eq_some (hnone p)).mp hu with ⟨-, rfl, rfl, rfl⟩ | hu
    · exact ⟨hsig', rfl, hhas⟩
    · exact h.listed q b n u hu
  case single =>
    intro b n
    by_cases hbn : b = a ∧ n = t.accountNonce
    · obtain ⟨rfl, rfl⟩ := hbn
      cases p with
      | pending => exact Or.inr (slots_fill_eq_none (hnone _) (hnone _) (by simp))
      | queued => exact Or.inl (slots_fill_eq_none (hnone _) (hnone _) (by simp))
    · exact (h.single b n).imp (fun hn => slots_fill_eq_none (hnone p) hn fun hh => hbn hh.2)
        (fun hn => slots_fill_eq_none (hnone p) hn fun hh => hbn hh.2)
  case flight =>
    intro u hu
    obtain ⟨huhas, b, hub, hunone⟩ := h.flight u (mem_cons_of_mem _ hu)
    refine ⟨huhas, b, hub, fun q => slots_fill_eq_none (hnone p) (hunone q) ?_⟩
    rintro ⟨-, rfl, hn⟩
    exact hapart u hu (hsig'.trans hub.symm) hn.symm
  case apart => exact hF
  case covered =>
    intro u hu
    rcases h.covered u hu with hm | ⟨q, b, hq⟩
    · rcases mem_cons.mp hm with rfl | hm
      · exact Or.inr ⟨p, a, (slots_fill_eq_some (hnone p)).mpr (Or.inl ⟨rfl, rfl, rfl, rfl⟩)⟩
      · exact Or.inl hm
    · exact Or.inr ⟨q, b, (slots_fill_eq_some (hnone p)).mpr (Or.inr hq)⟩
  case recorded => exact h.recorded

theorem Inv.leave {e : CMEvent} (hlegal : c.ledger.Legal e)
    (hhas : ∀ u, (c.ledger.step e).Has u ↔ u ≠ t ∧ c.ledger.Has u) : Inv F (c.event e) where
  listed := by
    intro q a n u hu
    obtain ⟨hsig, hn, hu'⟩ := h.listed q a n u hu
    exact ⟨hsig, hn, (hhas u).mpr ⟨h.ne_of_listed mem_cons_self hu, hu'⟩⟩
  single := h.single
  flight := by
    intro u hu
    obtain ⟨huhas, hfree⟩ := h.flight u (mem_cons_of_mem _ hu)
    refine ⟨(hhas u).mpr ⟨?_, huhas⟩, hfree⟩
    rintro rfl
    exact (pairwise_cons.mp h.apart).1 u hu rfl rfl
  apart := (pairwise_cons.mp h.apart).2
  covered := by
    intro u hu
    obtain ⟨hne, hu⟩ := (hhas u).mp hu
    exact (h.covered u hu).imp_left fun hm => (mem_cons.mp hm).resolve_left hne
  recorded := recorded_step h.recorded hlegal

theorem Inv.legal_unlock : c.ledger.Legal (.unlock t) :=
  (h.flight t mem_cons_self).1

theorem Inv.unlock : Inv F (c.event (.unlock t)) :=
  h.leave h.legal_unlock fun _ => has_unlock h.legal_unlock

theorem Inv.forget : Inv F (c.event (.forget t)) :=
  h.leave h.legal_unlock fun _ => has_forget h.legal_unlock

end

theorem Inv.lock (h : Inv [] c) (hlegal : c.ledger.Legal (.lock t)) (hsig : c.signer t = some addr)
    (hfree : ∀ q, c.slots q addr t.accountNonce = none) : Inv [t] (c.event (.lock t)) where
  listed := by
    intro q a n u hu
    obtain ⟨hs, hn, hhas⟩ := h.listed q a n u hu
    exact ⟨hs, hn, (has_lock hlegal.2).mpr (Or.inr hhas)⟩
  single := h.single
  flight := by
    intro u hu
    cases mem_singleton.mp hu
    exact ⟨(has_lock hlegal.2).mpr (Or.inl rfl), addr, hsig, hfree⟩
  apart := pairwise_singleton _ t
  covered := by
    intro u hu
    rcases (has_lock hlegal.2).mp hu with rfl | hu
    · exact Or.inl mem_cons_self
    · exact Or.inr ((h.covered u hu).resolve_left not_mem_nil)
  recorded := recorded_step h.recorded hlegal

theorem Inv.store (h : Inv F c) (block : Block) : Inv F (c.event (.store block)) where
  listed := h.listed
  single := h.single
  flight := h.flight
  apart := h.apart
  covered := h.covered
  recorded := recorded_step (e := .store block) h.recorded trivial

/-! ## Admission -/

/-- The transaction that is replaced leaves. -/
def leaveOld (c : PoolCore) : Option Transaction → PoolCore
  | none => c
  | some old => c.event (.unlock old)

section

variable (h : Inv [] c) (hlegal : c.ledger.Legal (.lock t)) (hsig : c.signer t = some addr)
include h hlegal hsig

theorem Inv.enterFree (hfree : ∀ q, c.slots q addr t.accountNonce = none) :
    Inv [] ((c.setList p addr (update (c.slots p addr) t.accountNonce (some t))).event
      (.lock t)) :=
  (h.lock hlegal hsig hfree).place p hsig

theorem Inv.enterReplacing {old : Transaction}
    (hold : c.slots p addr t.accountNonce = some old) :
    Inv [] (((c.setList p addr
      (update (c.slots p addr) t.accountNonce (some t))).event (.unlock old)).event
        (.lock t)) := by
  have hhas : c.ledger.Has old := (h.listed p addr _ old hold).2.2
  have htake := (h.take (splits_singleton (fun n u hu => (h.listed p addr n u hu).2.1) hold)).unlock
  have hfree : ∀ q, ((c.setList p addr (update (c.slots p addr) t.accountNonce none)).event
      (.unlock old)).slots q addr t.accountNonce = none := by
    intro q
    show (c.setList p addr _).slots q addr t.accountNonce = none
    by_cases hq : q = p
    · subst hq
      rw [slots_setList_self, update_self]
    · rw [slots_setList_of_ne fun hh => hq hh.1]
      exact h.eq_none_of_ne hold hq
  have hlegal' := legal_lock_unlock h.recorded hhas hlegal
  have hplace := (htake.lock hlegal' hsig hfree).place p hsig
  have hslots : update ((((c.setList p addr (update (c.slots p addr)
      t.accountNonce none)).event (.unlock old)).event (.lock t)).slots p addr) t.accountNonce
        (some t) = update (c.slots p addr) t.accountNonce (some t) := by
    show update ((c.setList p addr _).slots p addr) t.accountNonce (some t) = _
    rw [slots_setList_self, update_idem]
  rw [hslots] at hplace
  -- events and slots do not interfere
  have heq : (((c.setList p addr (update (c.slots p addr) t.accountNonce none)).event
      (.unlock old)).event (.lock t)).setList p addr
        (update (c.slots p addr) t.accountNonce (some t)) =
      ((c.setList p addr (update (c.slots p addr) t.accountNonce (some t))).event
        (.unlock old)).event (.lock t) :=
    setList_setList ((c.event (.unlock old)).event (.lock t)) p addr _ _
  exact heq ▸ hplace

theorem Inv.enter {old : Option Transaction}
    (hold : c.slots p addr t.accountNonce = old)
    (hother : ∀ q, q ≠ p → c.slots q addr t.accountNonce = none) :
    Inv [] (((c.setList p addr
      (update (c.slots p addr) t.accountNonce (some t))).leaveOld old).event (.lock t)) := by
  cases old with
  | none =>
    refine h.enterFree hlegal hsig fun q => ?_
    by_cases hq : q = p
    · exact hq ▸ hold
    · exact hother q hq
  | some old => exact h.enterReplacing hlegal hsig hold

end

theorem Inv.evolves_enter (h : Inv [] c) {K : CMEvent → Prop} (hK : ∀ u, K (.unlock u))
    (hKl : K (.lock t)) (hlegal : c.ledger.Legal (.lock t)) {old : Option Transaction}
    (hold : c.slots p addr t.accountNonce = old) :
    Ledger.Evolves K c.ledger ((c.leaveOld old).event (.lock t)).ledger := by
  cases old with
  | none => exact (Ledger.Evolves.refl K _).step hKl hlegal
  | some old =>
    have hhas : c.ledger.Has old := (h.listed p addr _ old hold).2.2
    exact ((Ledger.Evolves.refl K _).step (hK old) hhas).step hKl
      (legal_lock_unlock h.recorded hhas hlegal)

end PoolCore

end GethComments
