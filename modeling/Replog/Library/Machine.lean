import Mathlib.Data.Nat.Notation
import Mathlib.Tactic.TypeStar

/-!
# Machines that answer every operation

A machine takes an operation and a state to a reply and a new state. One machine refines
another along a relation when related states answer alike and stay related. The relation may
depend on how many operations are still to come, which is how a bounded resource is tracked.
-/

namespace Replog.Library

variable {Op Reply σ τ : Type*}

/-- The replies of a run and the state after it. -/
def runOps (step : Op → σ → Reply × σ) : List Op → σ → List Reply × σ
  | [], s => ([], s)
  | op :: ops, s =>
    let (reply, s') := step op s
    let (replies, s'') := runOps step ops s'
    (reply :: replies, s'')

/-- Related states answer alike and stay related while operations are left. -/
def StepRefines (R : ℕ → σ → τ → Prop) (step : Op → σ → Reply × σ)
    (spec : Op → τ → Reply × τ) : Prop :=
  ∀ n op s t, R (n + 1) s t →
    (step op s).1 = (spec op t).1 ∧ R n (step op s).2 (spec op t).2

/-- A run of operations with a property, where it is these that related states answer alike. -/
theorem run_related {R : ℕ → σ → τ → Prop} {P : Op → Prop} {step : Op → σ → Reply × σ}
    {spec : Op → τ → Reply × τ}
    (h : ∀ n op s t, P op → R (n + 1) s t →
      (step op s).1 = (spec op t).1 ∧ R n (step op s).2 (spec op t).2)
    (ops : List Op) (hops : ∀ op ∈ ops, P op) {n : ℕ} {s : σ} {t : τ} (hR : R (ops.length + n) s t) :
    (runOps step ops s).1 = (runOps spec ops t).1 ∧
      R n (runOps step ops s).2 (runOps spec ops t).2 := by
  induction ops generalizing s t with
  | nil =>
    rw [List.length_nil, Nat.zero_add] at hR
    exact ⟨rfl, hR⟩
  | cons op ops ih =>
    rw [List.length_cons, Nat.add_right_comm] at hR
    obtain ⟨hreply, hnext⟩ := h _ op s t (hops op List.mem_cons_self) hR
    obtain ⟨hreplies, hend⟩ := ih (fun op' hop' => hops op' (List.mem_cons_of_mem op hop')) hnext
    exact ⟨by simp only [runOps, hreply, hreplies], hend⟩

theorem StepRefines.run {R : ℕ → σ → τ → Prop} {step : Op → σ → Reply × σ}
    {spec : Op → τ → Reply × τ} (h : StepRefines R step spec) (ops : List Op) {n : ℕ} {s : σ}
    {t : τ} (hR : R (ops.length + n) s t) :
    (runOps step ops s).1 = (runOps spec ops t).1 ∧
      R n (runOps step ops s).2 (runOps spec ops t).2 :=
  run_related (P := fun _ => True) (fun n op s t _ hR => h n op s t hR) ops (fun _ _ => trivial) hR

end Replog.Library
