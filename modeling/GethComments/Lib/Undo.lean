import Mathlib.Data.List.Basic

/-!
# Undo logs with nested snapshots

A state with a log of its changes, from which the newest change can be undone. What undoing brings
back is the earlier state up to a relation that undoing respects.

* `Undoes.trans`: what undoes two stretches of changes undoes both;
* `Saved.step`, `Saved.snapshot`, `Saved.revert`: the stack of snapshots along a run, in which
  every snapshot remembers the stack below it; a revert brings back the state of the snapshot,
  and every property that the steps preserve.
-/

namespace GethComments

universe u

/-- How deep the log of a state is, how its newest change is undone, and which states count as
restored. -/
structure UndoLog (σ : Type u) where
  depth : σ → Nat
  undo : σ → Option σ
  Restores : σ → σ → Prop
  refl : ∀ a, Restores a a
  trans : ∀ {a b c}, Restores a b → Restores b c → Restores a c
  depth_eq : ∀ {a b}, Restores a b → depth b = depth a
  undo_congr : ∀ {a b a'}, Restores a b → undo a = some a' → ∃ b', undo b = some b' ∧ Restores a' b'

namespace UndoLog

variable {σ : Type u} (U : UndoLog σ) {P : σ → Prop} {a b c : σ}

/-- The newest `n` changes undone, one after the other. -/
def rewind : Nat → σ → Option σ
  | 0, s => some s
  | n + 1, s => (U.undo s).bind (rewind n)

theorem rewind_add (m n : Nat) (s : σ) : U.rewind (m + n) s = (U.rewind m s).bind (U.rewind n) := by
  induction m generalizing s with
  | zero => simp [rewind]
  | succ m ih =>
    rw [Nat.succ_add]
    cases h : U.undo s with
    | none => simp [rewind, h]
    | some s' => simp [rewind, h, ih]

variable {U}

theorem rewind_congr {n : Nat} (h : U.Restores a b) (hr : U.rewind n a = some c) :
    ∃ d, U.rewind n b = some d ∧ U.Restores c d := by
  induction n generalizing a b with
  | zero =>
    cases hr
    exact ⟨b, rfl, h⟩
  | succ n ih =>
    obtain ⟨a', ha, hr⟩ := Option.bind_eq_some_iff.mp hr
    obtain ⟨b', hb, h'⟩ := U.undo_congr h ha
    obtain ⟨d, hd, hcd⟩ := ih h' hr
    exact ⟨d, by rw [rewind, hb, Option.bind_some, hd], hcd⟩

/-- Undoing the changes since `a` restores `a`. -/
def Undoes (U : UndoLog σ) (a b : σ) : Prop :=
  ∃ n c, U.depth b = U.depth a + n ∧ U.rewind n b = some c ∧ U.Restores a c

namespace Undoes

theorem of_restores (h : U.Restores a b) : U.Undoes a b := ⟨0, b, U.depth_eq h, rfl, h⟩

theorem refl (a : σ) : U.Undoes a a := of_restores (U.refl a)

theorem push (hd : U.depth b = U.depth a + 1) (hu : U.undo b = some c) (h : U.Restores a c) :
    U.Undoes a b :=
  ⟨1, c, hd, by rw [rewind, hu, Option.bind_some, rewind], h⟩

theorem trans (hab : U.Undoes a b) (hbc : U.Undoes b c) : U.Undoes a c := by
  obtain ⟨m, a', hm, hra, ha⟩ := hab
  obtain ⟨n, b', hn, hrb, hb⟩ := hbc
  obtain ⟨a'', hra', ha'⟩ := rewind_congr hb hra
  refine ⟨n + m, a'', by omega, ?_, U.trans ha ha'⟩
  rw [rewind_add, hrb, Option.bind_some, hra']

theorem rewind (h : U.Undoes a b) :
    ∃ c, U.rewind (U.depth b - U.depth a) b = some c ∧ U.Restores a c := by
  obtain ⟨n, c, hd, hr, hc⟩ := h
  refine ⟨c, ?_, hc⟩
  rwa [hd, Nat.add_sub_cancel_left]

end Undoes

/-- The depths of the snapshots that are still valid, the newest first: each was taken in a state
with `P` whose own snapshots are the older ones, and the changes since can be undone. -/
inductive Saved (U : UndoLog σ) (P : σ → Prop) : List Nat → σ → Prop
  | nil {s : σ} (h : P s) : Saved U P [] s
  | cons {older : List Nat} {l s : σ} (hl : Saved U P older l) (h : P s) (hu : U.Undoes l s) :
      Saved U P (U.depth l :: older) s

namespace Saved

variable {stack : List Nat}

theorem holds (h : Saved U P stack a) : P a := by
  cases h with
  | nil h => exact h
  | cons _ h _ => exact h

theorem step (h : Saved U P stack a) (hu : U.Undoes a b) (hb : P b) : Saved U P stack b := by
  cases h with
  | nil _ => exact .nil hb
  | cons hl _ hla => exact .cons hl hb (hla.trans hu)

theorem snapshot (h : Saved U P stack a) : Saved U P (U.depth a :: stack) a :=
  .cons h h.holds (.refl a)

theorem find {younger older : List Nat} {i : Nat} (h : Saved U P (younger ++ i :: older) a) :
    ∃ l, U.depth l = i ∧ Saved U P older l ∧ U.Undoes l a := by
  induction younger generalizing a with
  | nil =>
    cases h with
    | cons hl _ hu => exact ⟨_, rfl, hl, hu⟩
  | cons j younger ih =>
    cases h with
    | cons hl _ hu =>
      obtain ⟨l, hi, hl', hu'⟩ := ih hl
      exact ⟨l, hi, hl', hu'.trans hu⟩

/-- Reverting to a snapshot brings back what holds at every state and the older snapshots. -/
theorem revert {younger older : List Nat} {i : Nat} (h : Saved U P (younger ++ i :: older) a)
    (hP : ∀ {l c}, P l → U.Restores l c → P c) :
    ∃ c, U.rewind (U.depth a - i) a = some c ∧ Saved U P older c := by
  obtain ⟨l, rfl, hl, hu⟩ := h.find
  obtain ⟨c, hc, hlc⟩ := hu.rewind
  exact ⟨c, hc, hl.step (.of_restores hlc) (hP hl.holds hlc)⟩

end Saved

end UndoLog

end GethComments
