import Replog.Controller.Replicas
import Replog.Hosting.DataDir

/-!
# Where the controller puts partitions

The replicas of a partition never change, so the placement of a topic is decided when the topic
is created. A placement is dense if no broker hosts a partition over one it does not host.
-/

namespace Replog.Hosting
open Replog.Library
open Replog.Controller

/-! ## Dense placements -/

/-- No broker gets a gap below a partition of a topic that the scan looks at, and the offsets topic
is nobody's. -/
structure Dense (placement : String → ℕ → Option (List UInt32)) : Prop where
  bounded : ∀ topic k replicas, placement topic k = some replicas → k < 1024
  closed : ∀ topic k replicas, placement topic (k + 1) = some replicas → ∀ b ∈ replicas,
    ¬ Hidden topic → ∃ replicas', placement topic k = some replicas' ∧ b ∈ replicas'
  apart : ∀ k, placement offsetsTopic k = none

/-- A creation the controller refuses, or one that spares the offsets log and leaves no broker a
gap: a hidden topic, too few partitions for a gap, or every partition on every alive broker. -/
def Gapless (topic : String) (partitions replicationFactor : ℕ) (s : State) : Prop :=
  (createTopic topic partitions replicationFactor s).1 = .none →
    '/' ∉ topic.toList ∧ topic ≠ offsetsTopic ∧
      (Hidden topic ∨ partitions ≤ 1 ∨ s.aliveIds.length ≤ max replicationFactor 1)

instance (topic : String) (partitions replicationFactor : ℕ) (s : State) :
    Decidable (Gapless topic partitions replicationFactor s) :=
  inferInstanceAs (Decidable (_ → _))

private theorem mem_replicasOf_length {alive : List UInt32} (hnodup : alive.Nodup) (p : ℕ) (b : UInt32) :
    b ∈ replicasOf alive alive.length p ↔ b ∈ alive := by
  have hsub : replicasOf alive alive.length p ⊆ alive := fun _ =>
    State.mem_of_mem_replicasOf le_rfl
  have hperm : (replicasOf alive alive.length p).Perm alive :=
    (List.subperm_of_subset (State.nodup_replicasOf hnodup le_rfl p) hsub).perm_of_length_le
      (by simp [replicasOf])
  exact hperm.mem_iff

end Replog.Hosting

namespace Replog.Controller
open Replog.Library
open Replog.Hosting

namespace State

variable {s : State}

theorem dense_createTopic {topic : String} {partitions replicationFactor : ℕ}
    (h : Dense s.replicasAt) (hgap : Gapless topic partitions replicationFactor s) :
    Dense (createTopic topic partitions replicationFactor s).2.2.replicasAt := by
  have hpart : (createTopic topic partitions replicationFactor s).1 = .none →
      partitions ≤ 1024 ∧ max replicationFactor 1 ≤ s.aliveIds.length := by
    rw [createTopic]
    split
    · intro hnone
      cases hnone
    · split
      · intro hnone
        cases hnone
      · exact fun _ => by omega
  constructor
  · intro topic' k replicas hk
    rw [replicasAt_createTopic] at hk
    split at hk
    · rename_i hnew
      split at hk
      · have := (hpart hnew.2).1
        omega
      · cases hk
    · exact h.bounded topic' k replicas hk
  · intro topic' k replicas hk b hb hvisible
    rw [replicasAt_createTopic] at hk ⊢
    split at hk
    · rename_i hnew
      obtain ⟨rfl, haccepted⟩ := hnew
      rw [if_pos ⟨rfl, haccepted⟩]
      split at hk
      · rename_i hlt
        rcases (hgap haccepted).2.2 with hhidden | hone | hall
        · exact absurd hhidden hvisible
        · omega
        · have hrf : max replicationFactor 1 = s.aliveIds.length :=
            le_antisymm (hpart haccepted).2 hall
          cases hk
          rw [if_pos (by omega)]
          refine ⟨_, rfl, ?_⟩
          rw [hrf, mem_replicasOf_length s.nodup_aliveIds] at hb ⊢
          exact hb
      · cases hk
    · rename_i hold
      rw [if_neg hold]
      exact h.closed topic' k replicas hk b hb hvisible
  · intro k
    rw [replicasAt_createTopic, if_neg]
    · exact h.apart k
    · rintro ⟨rfl, haccepted⟩
      exact (hgap haccepted).2.1 rfl

end State

namespace Shared

/-- Dense in memory and in what a restart would bring back. -/
structure Dense (c : Shared) : Prop where
  mem : Hosting.Dense c.mem.replicasAt
  disk : ∀ now, Hosting.Dense (loadSnapshot now c.disk).replicasAt

theorem dense_iff_placed {c : Shared} : c.Dense ↔ c.Placed Hosting.Dense :=
  ⟨fun h => ⟨h.mem, h.disk⟩, fun h => ⟨h.mem, h.disk⟩⟩

end Shared
end Replog.Controller
