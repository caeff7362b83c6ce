import Mathlib.Data.List.Basic

/-!
# Runs of a labelled transition function

A run from `s` under the labels `as` is `as.foldl step s`. A condition on
steps (`ok`: on the state before the step and on its label) is carried along a
run by `Along`.

* `invariant`: what every admitted step preserves holds at the end of the run;
* `along_of_forall`, `along_append`, `along_snoc`: building and splitting a run;
* `along_invariant`: the invariant also holds before every step of the run;
* `exists_of_along`: every label of the run has been admitted in some state;
* `along_iff_prefix`: a condition that says exactly which steps keep a property;
* `foldl_each`: a run that brings one place after the other into a new state;
* `foldlM_invariant`: the invariant rule for steps that can fail;
* `foldlM_total`: steps that cannot fail, each with an effect that lasts.
-/

namespace GethComments.Run

open List

universe u v

variable {σ : Type u} {α : Type v}

/-- Every step of the run from `s` under `as` is taken in a state where `ok` admits it. -/
def Along (step : σ → α → σ) (ok : σ → α → Prop) : σ → List α → Prop
  | _, [] => True
  | s, a :: as => ok s a ∧ Along step ok (step s a) as

variable {step : σ → α → σ} {ok ok' : σ → α → Prop} {P : σ → Prop}

/-- **Invariant rule.** -/
theorem invariant (h : ∀ s a, P s → ok s a → P (step s a)) (as : List α) (s : σ)
    (hs : P s) (ha : Along step ok s as) : P (as.foldl step s) := by
  induction as generalizing s with
  | nil => exact hs
  | cons a as ih =>
    obtain ⟨hok, hrest⟩ := ha
    exact ih (step s a) (h s a hs hok) hrest

theorem along_of_forall (as : List α) (h : ∀ s, ∀ a ∈ as, ok s a) (s : σ) : Along step ok s as := by
  induction as generalizing s with
  | nil => trivial
  | cons a as ih =>
    exact ⟨h s a mem_cons_self, ih (fun s b hb => h s b (mem_cons_of_mem _ hb)) _⟩

theorem along_append (s : σ) (as bs : List α) :
    Along step ok s (as ++ bs) ↔ Along step ok s as ∧ Along step ok (as.foldl step s) bs := by
  induction as generalizing s with
  | nil => simp [Along]
  | cons a as ih => simp [Along, ih, and_assoc]

theorem along_snoc (s : σ) (as : List α) (a : α) :
    Along step ok s (as ++ [a]) ↔ Along step ok s as ∧ ok (as.foldl step s) a := by
  rw [along_append]
  simp [Along]

theorem along_and {s : σ} {as : List α} (h : Along step ok s as) (h' : Along step ok' s as) :
    Along step (fun s a => ok s a ∧ ok' s a) s as := by
  induction as generalizing s with
  | nil => trivial
  | cons a as ih => exact ⟨⟨h.1, h'.1⟩, ih h.2 h'.2⟩

theorem along_invariant (h : ∀ s a, P s → ok s a → P (step s a)) (as : List α) (s : σ)
    (hs : P s) (ha : Along step ok s as) : Along step (fun s a => P s ∧ ok s a) s as := by
  induction as generalizing s with
  | nil => trivial
  | cons a as ih => exact ⟨⟨hs, ha.1⟩, ih _ (h s a hs ha.1) ha.2⟩

/-- If `ok` admits exactly the steps that keep `Q`, it admits the whole run exactly if `Q` holds
after every part of it. `U` is what the legal steps keep besides. -/
theorem along_iff_prefix {legal : σ → α → Prop} {Q U : σ → Prop}
    (hU : ∀ s a, Q s → U s → legal s a → U (step s a))
    (hQ : ∀ s a, Q s → U s → legal s a → (ok s a ↔ Q (step s a))) (as : List α) (s : σ)
    (hs : Q s) (hu : U s) (hlegal : Along step legal s as) :
    Along step ok s as ↔ ∀ bs, bs <+: as → Q (bs.foldl step s) := by
  induction as generalizing s with
  | nil =>
    refine ⟨fun _ bs hbs => ?_, fun _ => trivial⟩
    rw [prefix_nil.mp hbs]
    exact hs
  | cons a as ih =>
    have hstep := hQ s a hs hu hlegal.1
    have hu' := hU s a hs hu hlegal.1
    constructor
    · rintro ⟨hok, hrest⟩ bs hbs
      cases bs with
      | nil => exact hs
      | cons b bs =>
        obtain ⟨rfl, hbs'⟩ := cons_prefix_cons.mp hbs
        exact (ih _ (hstep.mp hok) hu' hlegal.2).mp hrest bs hbs'
    · intro h
      have hfirst : Q (step s a) := h [a] (cons_prefix_cons.mpr ⟨rfl, nil_prefix⟩)
      refine ⟨hstep.mpr hfirst, (ih _ hfirst hu' hlegal.2).mpr fun bs hbs => ?_⟩
      exact h (a :: bs) (cons_prefix_cons.mpr ⟨rfl, hbs⟩)

theorem exists_of_along {s : σ} {as : List α} (ha : Along step ok s as) {a : α} (h : a ∈ as) :
    ∃ s', ok s' a := by
  induction as generalizing s with
  | nil => cases h
  | cons b as ih =>
    rcases mem_cons.mp h with rfl | h
    · exact ⟨s, ha.1⟩
    · exact ih ha.2 h

/-- A run over different labels, each of which leads its own place from `P` to `Q` and leaves the
others as they are. -/
theorem foldl_each {P Q : σ → α → Prop} {I : σ → Prop} (as : List α) (hnd : as.Nodup)
    (hI : ∀ s a, I s → P s a → I (step s a) ∧ Q (step s a) a)
    (hP : ∀ s a b, I s → P s a → b ≠ a → P s b → P (step s a) b)
    (hQ : ∀ s a b, I s → P s a → b ≠ a → Q s b → Q (step s a) b) (s : σ) (hs : I s)
    (h : ∀ a ∈ as, P s a) :
    I (as.foldl step s) ∧ (∀ a ∈ as, Q (as.foldl step s) a) ∧
      ∀ b ∉ as, (P s b → P (as.foldl step s) b) ∧ (Q s b → Q (as.foldl step s) b) := by
  induction as generalizing s with
  | nil => exact ⟨hs, by simp, fun b _ => ⟨id, id⟩⟩
  | cons a as ih =>
    obtain ⟨ha, hnd⟩ := nodup_cons.mp hnd
    have hPa : P s a := h a mem_cons_self
    obtain ⟨hI', hQa⟩ := hI s a hs hPa
    have hrest : ∀ b ∈ as, P (step s a) b := fun b hb =>
      hP s a b hs hPa (fun heq => ha (heq ▸ hb)) (h b (mem_cons_of_mem a hb))
    obtain ⟨hI'', hQ'', hother⟩ := ih hnd (step s a) hI' hrest
    refine ⟨hI'', fun b hb => ?_, fun b hb => ?_⟩
    · rcases mem_cons.mp hb with rfl | hb
      · exact (hother b ha).2 hQa
      · exact hQ'' b hb
    · obtain ⟨hne, hb⟩ := not_or.mp fun hor => hb (mem_cons.mpr hor)
      exact ⟨fun hPb => (hother b hb).1 (hP s a b hs hPa hne hPb),
        fun hQb => (hother b hb).2 (hQ s a b hs hPa hne hQb)⟩

theorem foldlM_invariant {step : σ → α → Option σ} (as : List α)
    (h : ∀ s s', ∀ a ∈ as, P s → step s a = some s' → P s') {s s' : σ} (hs : P s)
    (hr : as.foldlM step s = some s') : P s' := by
  induction as generalizing s with
  | nil =>
    cases hr
    exact hs
  | cons a as ih =>
    rw [foldlM_cons] at hr
    obtain ⟨s1, h1, hr⟩ := Option.bind_eq_some_iff.mp hr
    have hs1 : P s1 := h s s1 a mem_cons_self hs h1
    exact ih (fun s s' b hb => h s s' b (mem_cons_of_mem _ hb)) hs1 hr

/-- Steps that do not fail under the invariant; what a step brings about stays. -/
theorem foldlM_total {step : σ → α → Option σ} {Q : σ → α → Prop} (as : List α)
    (h : ∀ s, ∀ a ∈ as, P s →
      ∃ s', step s a = some s' ∧ P s' ∧ Q s' a ∧ ∀ b, Q s b → Q s' b) {s : σ} (hs : P s) :
    ∃ s', as.foldlM step s = some s' ∧ P s' ∧ (∀ b, Q s b → Q s' b) ∧ ∀ a ∈ as, Q s' a := by
  induction as generalizing s with
  | nil => exact ⟨s, rfl, hs, fun _ => id, by simp⟩
  | cons a as ih =>
    obtain ⟨s1, heq, hs1, hQ, hstay⟩ := h s a mem_cons_self hs
    obtain ⟨s2, heq', hs2, hstay', hQ'⟩ := ih (fun s b hb => h s b (mem_cons_of_mem _ hb)) hs1
    refine ⟨s2, ?_, hs2, fun b hb => hstay' b (hstay b hb), fun b hb => ?_⟩
    · rw [foldlM_cons, heq]
      exact heq'
    · rcases mem_cons.mp hb with rfl | hb
      · exact hstay' b hQ
      · exact hQ' b hb

theorem bind_eq_ok {ε : Type*} {α β : Type _} {x : Except ε α} {f : α → Except ε β} {b : β}
    (h : (x >>= f) = .ok b) : ∃ a, x = .ok a ∧ f a = .ok b := by
  cases x with
  | error e => cases h
  | ok a => exact ⟨a, rfl, h⟩

theorem foldlM_cons_eq_ok {ε : Type*} {step : σ → α → Except ε σ} {a : α} {as : List α} {s s' : σ}
    (h : (a :: as).foldlM step s = .ok s') :
    ∃ s1, step s a = .ok s1 ∧ as.foldlM step s1 = .ok s' := by
  rw [foldlM_cons] at h
  exact bind_eq_ok h

theorem foldlM_ok_invariant {ε : Type*} {step : σ → α → Except ε σ} (as : List α)
    (h : ∀ s s', ∀ a ∈ as, P s → step s a = .ok s' → P s') {s s' : σ} (hs : P s)
    (hr : as.foldlM step s = .ok s') : P s' := by
  induction as generalizing s with
  | nil =>
    cases hr
    exact hs
  | cons a as ih =>
    obtain ⟨s1, h1, hr⟩ := foldlM_cons_eq_ok hr
    have hs1 : P s1 := h s s1 a mem_cons_self hs h1
    exact ih (fun s s' b hb => h s s' b (mem_cons_of_mem _ hb)) hs1 hr

end GethComments.Run
