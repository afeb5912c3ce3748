import Replog.Groups.Offsets

/-!
# Fencing of commits

A commit checked at one generation takes effect later, in another task. The fence holds in the
runs in which no generation is left while a commit checked at it is still under way.
-/

namespace Replog.Groups
open Replog.Library
open Replog.Proto (ErrorCode)

/-- A broker with the commits that took effect, the latest first, each with the generation its
group had then. Reaching the log and reaching the cache are an effect each. -/
structure Commits where
  broker : GroupBroker
  effects : List (Commit × ℕ)

inductive CommitAction where
  | call (a : Action)
  | commit (c : Commit)
  | append (k : ℕ) (ok : Bool)
  | finish (k : ℕ) (ok : Bool)

def GroupCoordinator.call (c : GroupCoordinator) : Action → GroupCoordinator
  | .join group memberId sessionTimeout topics counts now =>
    (c.join group memberId sessionTimeout topics counts now).2
  | .heartbeat group memberId generation now => (c.heartbeat group memberId generation now).2
  | .leave group memberId counts => (c.leave group memberId counts).2
  | .expire counts now => (c.expire counts now).2

theorem GroupCoordinator.evolves_call (c : GroupCoordinator) (a : Action) (group : String) :
    (c.group group).Evolves ((c.call a).group group) := by
  cases a with
  | join group' memberId sessionTimeout topics counts now =>
    exact (c.join_spec group' memberId sessionTimeout topics counts now).1 group
  | heartbeat group' memberId generation now =>
    exact (c.updates_heartbeat group' memberId generation now (fun _ => none) group).evolves
  | leave group' memberId counts => exact (c.updates_leave group' memberId counts group).evolves
  | expire counts now => exact (c.updates_expire counts now group).evolves

namespace Commits

def init : Commits := { broker := .init, effects := [] }

def generation (s : Commits) (group : String) : ℕ :=
  (s.broker.coordinator.group group).generation

/-- The effect of a task's step, if it has one. -/
def record (s : Commits) (k : ℕ) (ok : Bool) : List (Commit × ℕ) :=
  if ok then (s.broker.tasks[k]?.toList.map fun t => (t.commit, s.generation t.commit.group)) ++
    s.effects
  else s.effects

def step (s : Commits) : CommitAction → Option Commits
  | .call a => some { s with broker := { s.broker with coordinator := s.broker.coordinator.call a } }
  | .commit c => some { s with broker := (s.broker.commitOffset c).2 }
  | .append k ok => do
    let broker ← s.broker.appendCommit k ok
    return { broker, effects := s.record k ok }
  | .finish k ok => do
    let broker ← s.broker.finishCommit k ok
    return { broker, effects := s.record k ok }

/-- No group moves to its next generation while a fenced commit of it is under way. -/
def Settled (s : Commits) : CommitAction → Prop
  | .call a => ∀ t ∈ s.broker.tasks, t.commit.memberId ≠ "" →
      ((s.broker.coordinator.call a).group t.commit.group).generation =
        s.generation t.commit.group
  | _ => True

instance (s : Commits) (a : CommitAction) : Decidable (s.Settled a) :=
  match a with
  | .call a => inferInstanceAs (Decidable (∀ t ∈ s.broker.tasks, t.commit.memberId ≠ "" →
      ((s.broker.coordinator.call a).group t.commit.group).generation =
        s.generation t.commit.group))
  | .commit _ => inferInstanceAs (Decidable True)
  | .append _ _ => inferInstanceAs (Decidable True)
  | .finish _ _ => inferInstanceAs (Decidable True)

/-- Fenced commits take effect at the generation they were checked at, and of two fenced commits
of a group the later one to take effect is not of an older generation. -/
structure Fenced (s : Commits) : Prop where
  at_generation : ∀ e ∈ s.effects, e.1.memberId ≠ "" → e.2 = e.1.generation
  ordered : s.effects.Pairwise fun later earlier =>
    later.1.memberId ≠ "" → earlier.1.memberId ≠ "" → later.1.group = earlier.1.group →
      earlier.1.generation ≤ later.1.generation

structure FenceInvariant (s : Commits) : Prop extends Fenced s where
  under_way : ∀ t ∈ s.broker.tasks, t.commit.memberId ≠ "" →
    t.commit.generation = s.generation t.commit.group
  past : ∀ e ∈ s.effects, e.2 ≤ s.generation e.1.group

private theorem fenceInvariant_init : init.FenceInvariant where
  at_generation := nofun
  ordered := .nil
  under_way := nofun
  past := nofun

variable {s s' : Commits}

private theorem fenceInvariant_task (h : s.FenceInvariant) {k : ℕ} {ok : Bool} {t : CommitTask}
    (ht : s.broker.tasks[k]? = some t) (htask : s.broker.TaskStep s'.broker t)
    (heffects : s'.effects = s.record k ok) : s'.FenceInvariant := by
  have hgeneration : s'.generation = s.generation := by
    funext group
    rw [generation, htask.coordinator_eq, generation]
  have hunder : ∀ t' ∈ s'.broker.tasks, t'.commit.memberId ≠ "" →
      t'.commit.generation = s'.generation t'.commit.group := by
    intro t' ht' hfenced
    obtain ⟨t, ht, heq⟩ := htask.tasks t' ht'
    rw [hgeneration, ← heq]
    exact h.under_way t ht (heq ▸ hfenced)
  cases ok with
  | false =>
    have hsame : s'.effects = s.effects := heffects
    refine ⟨⟨?_, ?_⟩, hunder, ?_⟩
    · exact hsame ▸ h.at_generation
    · exact hsame ▸ h.ordered
    · rw [hsame, hgeneration]
      exact h.past
  | true =>
    have hnew : s'.effects = (t.commit, s.generation t.commit.group) :: s.effects := by
      rw [heffects, record, if_pos rfl, ht]
      rfl
    refine ⟨⟨?_, ?_⟩, hunder, ?_⟩
    · rw [hnew]
      refine List.forall_mem_cons.mpr ⟨fun hfenced => ?_, h.at_generation⟩
      exact (h.under_way t htask.mem hfenced).symm
    · rw [hnew]
      refine List.pairwise_cons.mpr ⟨fun e he hfenced hfenced' hgroup => ?_, h.ordered⟩
      -- everything before is of a generation that has been reached
      rw [← h.at_generation e he hfenced', h.under_way t htask.mem hfenced, hgroup]
      exact h.past e he
    · rw [hnew, hgeneration]
      exact List.forall_mem_cons.mpr ⟨le_rfl, h.past⟩

private theorem fenceInvariant_step {a : CommitAction} (h : s.FenceInvariant) (ha : s.Settled a)
    (hstep : step s a = some s') : s'.FenceInvariant := by
  cases a with
  | call a =>
    cases hstep
    refine ⟨⟨h.at_generation, h.ordered⟩, fun t ht hfenced => ?_, fun e he => (h.past e he).trans ?_⟩
    · exact (h.under_way t ht hfenced).trans (ha t ht hfenced).symm
    · rcases (s.broker.coordinator.evolves_call a e.1.group).quiet_or_next with ⟨heq, -⟩ | ⟨heq, -⟩
      · exact heq.ge
      · exact (Nat.le_succ _).trans_eq heq.symm
  | commit c =>
    cases hstep
    rcases s.broker.commitOffset_spec c with hsame | ⟨hcheck, hnew⟩
    · rw [hsame]
      exact h
    · rw [hnew]
      refine ⟨⟨h.at_generation, h.ordered⟩, fun t ht hfenced => ?_, h.past⟩
      rcases List.mem_append.mp ht with ht | ht
      · exact h.under_way t ht hfenced
      · cases List.mem_singleton.mp ht
        exact (GroupCoordinator.checkCommit_eq_none hcheck hfenced).2
  | append k ok =>
    obtain ⟨broker, hbroker, heq⟩ := Option.bind_eq_some_iff.mp hstep
    cases heq
    obtain ⟨t, ht, htask⟩ := GroupBroker.appendCommit_spec hbroker
    exact fenceInvariant_task h ht htask rfl
  | finish k ok =>
    obtain ⟨broker, hbroker, heq⟩ := Option.bind_eq_some_iff.mp hstep
    cases heq
    obtain ⟨t, ht, htask⟩ := GroupBroker.finishCommit_spec hbroker
    exact fenceInvariant_task h ht htask rfl

/-- The fence holds in every run in which generations are only left with no fenced commit of the
group under way. -/
theorem commits_fenced (h : Reach step Settled init s) : s.Fenced :=
  (h.invariant fenceInvariant_init fun _ _ _ hs ha hstep =>
    fenceInvariant_step hs ha hstep).toFenced

/-- A member commits and stays, and the group moves on when its commit is through. -/
theorem commits_fenced_settled :
    ∃ s : Commits, s.effects.length = 2 ∧ s.generation "g" = 2 ∧ s.Fenced := by
  obtain ⟨s, hreach, heffects⟩ := Reach.exists_of_runSteps step Settled init
    [.call (.join "g" "" 10 ["t"] (fun _ => some 1) 0), .commit ⟨"g", "t", 0, 5, "m-1", 1⟩,
      .append 0 true, .finish 0 true, .call (.join "g" "" 10 ["t"] (fun _ => some 1) 1)]
    (fun s => s.effects.length = 2 ∧ s.generation "g" = 2) (by decide)
  exact ⟨s, heffects.1, heffects.2, commits_fenced hreach⟩

/-- Member 1 passes its check at generation 2 and leaves; member 2 takes the partition over and
commits 9 at generation 3; then the commit of member 1 goes through and offset 5 is back. -/
theorem commits_unfenced :
    ∃ s, Reach step (fun _ _ => True) init s ∧
      s.broker.store.fetch "g" "t" 0 = some 5 ∧
      s.effects = [(⟨"g", "t", 0, 5, "m-1", 2⟩, 3), (⟨"g", "t", 0, 5, "m-1", 2⟩, 3),
        (⟨"g", "t", 0, 9, "m-2", 3⟩, 3), (⟨"g", "t", 0, 9, "m-2", 3⟩, 3)] ∧ ¬ s.Fenced := by
  obtain ⟨s, hreach, hfetch, heffects⟩ := Reach.exists_of_runSteps step (fun _ _ => True) init
    [.call (.join "g" "" 10 ["t"] (fun _ => some 1) 0),
      .call (.join "g" "" 10 ["t"] (fun _ => some 1) 0), .commit ⟨"g", "t", 0, 5, "m-1", 2⟩,
      .call (.leave "g" "m-1" (fun _ => some 1)), .commit ⟨"g", "t", 0, 9, "m-2", 3⟩,
      .append 1 true, .finish 1 true, .append 0 true, .finish 0 true]
    (fun s => s.broker.store.fetch "g" "t" 0 = some 5 ∧
      s.effects = [(⟨"g", "t", 0, 5, "m-1", 2⟩, 3), (⟨"g", "t", 0, 5, "m-1", 2⟩, 3),
        (⟨"g", "t", 0, 9, "m-2", 3⟩, 3), (⟨"g", "t", 0, 9, "m-2", 3⟩, 3)]) (by decide)
  refine ⟨s, hreach, hfetch, heffects, fun hfenced => ?_⟩
  have hlast := hfenced.at_generation (⟨"g", "t", 0, 5, "m-1", 2⟩, 3) (by rw [heffects]; decide)
    (by decide)
  exact absurd hlast (by decide)

end Commits
end Replog.Groups
