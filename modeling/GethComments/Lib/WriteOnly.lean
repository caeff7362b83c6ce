import Mathlib.Control.Basic

/-!
# Components of a state that are only written

A computation over a state may have a component that it never reads and only
folds values into. Such a computation gives the same result, and the same rest
of the state, whatever the component was.

* `WriteOnly`: the property, with the values folded in;
* `writeOnly_pure`, `writeOnly_observe`, `WriteOnly.bind`: the rules for sequences.
-/

namespace GethComments

variable {σ δ β ρ ρ' : Type}

/-- The value of `f` on the current state. -/
def observe (f : σ → ρ) : StateM σ ρ := fun s => (f s, s)

/-- `f` never reads the component that `set` replaces: it folds some values into it with `upd`,
which do not depend on the component. The state keeps these values, and all that it has kept. -/
def WriteOnly (set : σ → δ → σ) (upd : δ → β → δ) (kept : σ → β → Prop) (f : StateM σ ρ) : Prop :=
  ∀ s, (∀ w, kept s w → kept (f.run s).2 w) ∧ ∃ ws : List β, (∀ w ∈ ws, kept (f.run s).2 w) ∧
    ∀ d, f.run (set s d) = ((f.run s).1, set (f.run s).2 (ws.foldl upd d))

variable {set : σ → δ → σ} {upd : δ → β → δ} {kept : σ → β → Prop}

theorem writeOnly_of_nil {f : StateM σ ρ} (hk : ∀ s w, kept s w → kept (f.run s).2 w)
    (h : ∀ s d, f.run (set s d) = ((f.run s).1, set (f.run s).2 d)) :
    WriteOnly set upd kept f :=
  fun s => ⟨hk s, [], fun _ hw => absurd hw List.not_mem_nil, h s⟩

theorem writeOnly_pure (r : ρ) : WriteOnly set upd kept (pure r) :=
  writeOnly_of_nil (fun _ _ h => h) fun _ _ => rfl

theorem writeOnly_observe {f : σ → ρ} (h : ∀ s d, f (set s d) = f s) :
    WriteOnly set upd kept (observe f) := by
  refine writeOnly_of_nil (fun _ _ h => h) fun s d => ?_
  change (f (set s d), set s d) = (f s, set s d)
  rw [h s d]

theorem writeOnly_modify {f : σ → σ} (hk : ∀ s w, kept s w → kept (f s) w)
    (h : ∀ s d, f (set s d) = set (f s) d) :
    WriteOnly set upd kept (modify f : StateM σ PUnit) := by
  refine writeOnly_of_nil hk fun s d => ?_
  change (PUnit.unit, f (set s d)) = (PUnit.unit, set (f s) d)
  rw [h s d]

theorem WriteOnly.bind {f : StateM σ ρ} {g : ρ → StateM σ ρ'} (hf : WriteOnly set upd kept f)
    (hg : ∀ r, WriteOnly set upd kept (g r)) : WriteOnly set upd kept (f >>= g) := by
  intro s
  obtain ⟨hkeep, ws, hstored, hws⟩ := hf s
  obtain ⟨hkeep', vs, hstored', hvs⟩ := hg (f.run s).1 (f.run s).2
  have hrun : ∀ t, (f >>= g).run t = (g (f.run t).1).run (f.run t).2 := fun _ => rfl
  refine ⟨fun w hw => hkeep' w (hkeep w hw), ws ++ vs, fun w hw => ?_, fun d => ?_⟩
  · rcases List.mem_append.mp hw with hw | hw
    · exact hkeep' w (hstored w hw)
    · exact hstored' w hw
  · rw [hrun, hrun, hws d, hvs, List.foldl_append]

theorem WriteOnly.ite {p : Prop} [Decidable p] {f g : StateM σ ρ}
    (hf : WriteOnly set upd kept f) (hg : WriteOnly set upd kept g) :
    WriteOnly set upd kept (if p then f else g) := by
  split
  · exact hf
  · exact hg

end GethComments
