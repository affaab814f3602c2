import Mathlib.Data.List.Induction

/-!
# Machines that move by actions

A `Machine` has one start and a partial step: an action that is not enabled in a state has no
successor there. Every choice a system makes, of its scheduler or of its environment, is part
of the action, so the step is a function and a run is evaluated from a list of actions.

The rules proofs use are `run_invariant`, for a run between any two states, and
`Reachable.invariant`, for everything that can be reached from the start; with
`Reachable.induction` one invariant rests on another, and with `run_history` it is about the
actions as well. `Leads` composes runs, for what a system can be brought to do, and `Halts` is about
what it cannot avoid.
-/

namespace Framework

/-- A deterministic machine with guarded actions. -/
structure Machine (σ α : Type) where
  start : σ
  step : σ → α → Option σ

namespace Machine

variable {σ α : Type} (M : Machine σ α)

/-- Take the actions one after the other. -/
def run (s : σ) (actions : List α) : Option σ := actions.foldlM M.step s

/-- Some actions lead from the start to `s`. -/
def Reachable (s : σ) : Prop := ∃ actions, M.run M.start actions = some s

/-- Some actions lead from `s` to `s'`. -/
def Leads (s s' : σ) : Prop := ∃ actions, M.run s actions = some s'

/-- The runs whose steps all meet a condition. -/
def only (C : σ → α → Prop) [∀ s a, Decidable (C s a)] : Machine σ α where
  start := M.start
  step s a := if C s a then M.step s a else none

variable {M}

@[simp] theorem run_nil (s : σ) : M.run s [] = some s := rfl

theorem run_cons (s : σ) (a : α) (actions : List α) :
    M.run s (a :: actions) = (M.step s a).bind fun s' => M.run s' actions := rfl

theorem run_append (s : σ) (as bs : List α) :
    M.run s (as ++ bs) = (M.run s as).bind fun s' => M.run s' bs :=
  List.foldlM_append

/-- What is read off the state a run ends in. -/
theorem read_run {β : Type} {s s' : σ} {actions : List α} (h : M.run s actions = some s')
    (f : σ → β) {b : β} (hb : (M.run s actions).map f = some b) : f s' = b := by
  rw [h] at hb
  exact Option.some.inj hb

/-- What every step keeps, a run keeps. -/
theorem run_invariant {P : σ → Prop}
    (hstep : ∀ {s a s'}, P s → M.step s a = some s' → P s') {s s' : σ} {actions : List α}
    (hs : P s) (hrun : M.run s actions = some s') : P s' := by
  induction actions generalizing s with
  | nil =>
    rw [run_nil, Option.some.injEq] at hrun
    exact hrun ▸ hs
  | cons a actions ih =>
    rw [run_cons, Option.bind_eq_some_iff] at hrun
    obtain ⟨s₁, hfirst, hrest⟩ := hrun
    exact ih (hstep hs hfirst) hrest

/-- What holds at the start and is kept by every step holds of everything reachable. -/
theorem Reachable.invariant {P : σ → Prop} (hstart : P M.start)
    (hstep : ∀ {s a s'}, P s → M.step s a = some s' → P s') {s : σ} (hs : M.Reachable s) : P s := by
  obtain ⟨actions, hrun⟩ := hs
  exact run_invariant hstep hstart hrun

/-- A step of `only` is a step that meets the condition. -/
theorem only_step {C : σ → α → Prop} [∀ s a, Decidable (C s a)] {s s' : σ} {a : α}
    (h : (M.only C).step s a = some s') : C s a ∧ M.step s a = some s' := by
  simp only [only] at h
  split at h
  · next hc => exact ⟨hc, h⟩
  · cases h

/-- The same between two states. -/
theorem Leads.invariant {P : σ → Prop}
    (hstep : ∀ {s a s'}, P s → M.step s a = some s' → P s') {s s' : σ} (hs : P s)
    (h : M.Leads s s') : P s' := by
  obtain ⟨actions, hrun⟩ := h
  exact run_invariant hstep hs hrun

theorem Leads.refl (s : σ) : M.Leads s s := ⟨[], rfl⟩

theorem Leads.trans {s s' s'' : σ} (h : M.Leads s s') (h' : M.Leads s' s'') : M.Leads s s'' := by
  obtain ⟨as, has⟩ := h
  obtain ⟨bs, hbs⟩ := h'
  refine ⟨as ++ bs, ?_⟩
  rw [run_append, has]
  exact hbs

/-- One step, and then more. -/
theorem Leads.step {s t u : σ} {a : α} (h : M.step s a = some t) (h' : M.Leads t u) :
    M.Leads s u := by
  obtain ⟨actions, hrun⟩ := h'
  refine ⟨a :: actions, ?_⟩
  rw [run_cons, h]
  exact hrun

theorem Reachable.of_only {C : σ → α → Prop} [∀ s a, Decidable (C s a)] {s : σ}
    (h : (M.only C).Reachable s) : M.Reachable s := by
  refine Reachable.invariant (M := M.only C) (P := M.Reachable) (Leads.refl M.start) ?_ h
  intro s a s' hs hstep
  exact Leads.trans hs (.step (only_step hstep).2 (.refl s'))

theorem Reachable.leads {s s' : σ} (h : M.Reachable s) (h' : M.Leads s s') : M.Reachable s' :=
  Leads.trans h h'

/-- The invariant rule where the step may use that its start is reachable, and so every invariant
shown before. -/
theorem Reachable.induction {P : σ → Prop} (hstart : P M.start)
    (hstep : ∀ {s a s'}, M.Reachable s → P s → M.step s a = some s' → P s') {s : σ}
    (hs : M.Reachable s) : P s := by
  refine (invariant (P := fun s => M.Reachable s ∧ P s) ⟨Leads.refl M.start, hstart⟩ ?_ hs).2
  rintro s a s' ⟨hreach, hP⟩ hmove
  exact ⟨hreach.leads (.step hmove (.refl s')), hstep hreach hP hmove⟩

/-- However the actions are chosen, a run from `s` is of bounded length and stops in `P` only. -/
def Halts (M : Machine σ α) (P : σ → Prop) (s : σ) : Prop :=
  ∃ bound, ∀ actions s', M.run s actions = some s' →
    actions.length ≤ bound ∧ (P s' ∨ ∃ a s'', M.step s' a = some s'')

/-- A measure that every step brings down, and a step wherever `P` is not reached. -/
theorem Halts.of_measure {P Q : σ → Prop} (measure : σ → ℕ)
    (hstep : ∀ {s a s'}, Q s → M.step s a = some s' → Q s' ∧ measure s' < measure s)
    (hlive : ∀ {s}, Q s → P s ∨ ∃ a s', M.step s a = some s') {s : σ} (hs : Q s) :
    M.Halts P s := by
  refine ⟨measure s, fun actions => ?_⟩
  induction actions generalizing s with
  | nil =>
    intro s' hrun
    rw [run_nil, Option.some.injEq] at hrun
    exact ⟨Nat.zero_le _, hlive (hrun ▸ hs)⟩
  | cons a actions ih =>
    intro s' hrun
    rw [run_cons, Option.bind_eq_some_iff] at hrun
    obtain ⟨s₁, hfirst, hrest⟩ := hrun
    obtain ⟨hs₁, hless⟩ := hstep hs hfirst
    obtain ⟨hlength, hstop⟩ := ih hs₁ s' hrest
    exact ⟨Nat.lt_of_le_of_lt hlength hless, hstop⟩

end Machine
end Framework
