import Mathlib.Tactic.TypeStar

/-!
# Runs of a labelled transition system

A step takes a state and an input to the next state, or is not enabled. `Reach` is what a system
can get to when each step it takes is allowed by a guard on the state before it and the input.
-/

namespace Replog.Library

section Deciding

-- a bounded quantifier is decided along the list, also where the type is finite
variable {α : Type*} (p : α → Prop) [DecidablePred p]

instance (priority := 1100) decidableForallMemList (l : List α) : Decidable (∀ x ∈ l, p x) :=
  l.decidableBAll p

instance (priority := 1100) decidableExistsMemList (l : List α) : Decidable (∃ x ∈ l, p x) :=
  l.decidableBEx p

instance (priority := 1100) decidableForallMemOption (o : Option α) : Decidable (∀ x ∈ o, p x) :=
  Option.decidableForallMem o

instance (priority := 1100) decidableExistsMemOption (o : Option α) : Decidable (∃ x ∈ o, p x) :=
  Option.decidableExistsMem o

end Deciding

variable {σ ι : Type*}

inductive Reach (step : σ → ι → Option σ) (guard : σ → ι → Prop) (init : σ) : σ → Prop where
  | init : Reach step guard init init
  | step {s s' : σ} {i : ι} (hs : Reach step guard init s) (hguard : guard s i)
      (hstep : step s i = some s') : Reach step guard init s'

variable {step : σ → ι → Option σ} {guard guard' : σ → ι → Prop} {init : σ}

/-- What holds at the start and is kept by every allowed step holds wherever the system gets. -/
theorem Reach.invariant {P : σ → Prop} (hinit : P init)
    (hkeep : ∀ s i s', P s → guard s i → step s i = some s' → P s') {s : σ}
    (h : Reach step guard init s) : P s := by
  induction h with
  | init => exact hinit
  | step _ hguard hstep ih => exact hkeep _ _ _ ih hguard hstep

theorem Reach.trans {s t : σ} (h : Reach step guard init s) (h' : Reach step guard s t) :
    Reach step guard init t := by
  induction h' with
  | init => exact h
  | step _ hguard hstep ih => exact .step ih hguard hstep

theorem Reach.mono (hguards : ∀ s i, guard s i → guard' s i) {s : σ}
    (h : Reach step guard init s) : Reach step guard' init s := by
  induction h with
  | init => exact .init
  | step _ hguard hstep ih => exact .step ih (hguards _ _ hguard) hstep

/-- Takes the inputs one after the other; `none` if one of them is not enabled or not allowed. -/
def runSteps (step : σ → ι → Option σ) (allowed : σ → ι → Bool) : List ι → σ → Option σ
  | [], s => some s
  | i :: rest, s =>
    if allowed s i then
      match step s i with
      | some s' => runSteps step allowed rest s'
      | none => none
    else none

theorem Reach.of_runSteps {allowed : σ → ι → Bool}
    (hguard : ∀ s i, allowed s i = true → guard s i) {inputs : List ι} {s s' : σ}
    (hs : Reach step guard init s) (hrun : runSteps step allowed inputs s = some s') :
    Reach step guard init s' := by
  induction inputs generalizing s with
  | nil =>
    cases hrun
    exact hs
  | cons i rest ih =>
    rw [runSteps] at hrun
    split at hrun
    · rename_i hallowed
      cases hnext : step s i with
      | none => simp [hnext] at hrun
      | some t =>
        rw [hnext] at hrun
        exact ih (.step hs (hguard s i hallowed) hnext) hrun
    · cases hrun

/-- A run that can be computed ends in a reachable state. -/
theorem Reach.exists_of_runSteps (step : σ → ι → Option σ) (guard : σ → ι → Prop)
    [∀ s i, Decidable (guard s i)] (init : σ) (inputs : List ι) (P : σ → Prop) [DecidablePred P]
    (hrun : (runSteps step (fun s i => guard s i) inputs init).any (fun s => P s) = true) :
    ∃ s, Reach step guard init s ∧ P s := by
  cases hlast : runSteps step (fun s i => guard s i) inputs init with
  | none => simp [hlast] at hrun
  | some s =>
    rw [hlast] at hrun
    exact ⟨s, Reach.init.of_runSteps (fun _ _ h => of_decide_eq_true h) hlast,
      of_decide_eq_true hrun⟩

end Replog.Library
