import Replog.Controller.Runs

/-!
# The replicas of the partitions over a run

The replicas of a partition never change, so what holds of them is decided when its topic is
created. A state comes back from the file with the replicas it was written with.
-/

namespace Replog.Controller
open Replog.Library

/-! ## The placement of a state -/

namespace State

def replicasAt (s : State) (topic : String) (k : ℕ) : Option (List UInt32) :=
  (s.partition topic k).map PartitionState.replicas

variable {s s' : State}

theorem replicasAt_electWhereNeeded (htopics : s'.topics = s.topics) :
    (electWhereNeeded s').2.replicasAt = s.replicasAt := by
  funext topic k
  have hpart : s'.partition topic k = s.partition topic k := by
    rw [partition, htopics, partition]
  rw [replicasAt, partition_electWhereNeeded, hpart, Option.map_map, replicasAt]
  exact congrArg (Option.map · _) (funext fun p => (p.evolves_elect s'.alive).replicas_eq)

theorem replicasAt_registerBroker (id : UInt32) (addr peerAddr : String) (now : ℕ) (s : State) :
    (registerBroker id addr peerAddr now s).2.replicasAt = s.replicasAt :=
  replicasAt_electWhereNeeded rfl

theorem replicasAt_brokerHeartbeat (id : UInt32) (now : ℕ) (s : State) :
    (brokerHeartbeat id now s).2.2.replicasAt = s.replicasAt := by
  rw [brokerHeartbeat]
  split
  · rfl
  · split
    · exact replicasAt_electWhereNeeded rfl
    · rfl

theorem replicasAt_sweepLiveness (cfg : ControllerConfig) (now : ℕ) (s : State) :
    (sweepLiveness cfg now s).2.replicasAt = s.replicasAt := by
  rw [sweepLiveness]
  split
  · exact replicasAt_electWhereNeeded rfl
  · rfl

theorem replicasAt_alterIsr (topic : String) (partition leaderEpoch : ℕ) (isr : List UInt32)
    (s : State) : (alterIsr topic partition leaderEpoch isr s).2.2.replicasAt = s.replicasAt := by
  rw [alterIsr]
  split
  · rfl
  · rename_i parts hparts
    split
    · rfl
    · rename_i p hp
      funext topic' k
      rw [replicasAt, partition_insert]
      split
      · rename_i htopic
        subst htopic
        rw [replicasAt, State.partition, hparts, Option.bind_some, List.getElem?_set]
        split
        · rename_i hk
          subst hk
          rw [hp, if_pos (List.getElem?_eq_some_iff.mp hp).1, Option.map_some, Option.map_some,
            (p.evolves_alterIsr s.alive leaderEpoch isr).replicas_eq]
        · rfl
      · rfl

/-- Replicas are taken from the brokers at hand. -/
theorem mem_of_mem_replicasOf {alive : List UInt32} {rf p : ℕ} (hrf : rf ≤ alive.length)
    {id : UInt32} (h : id ∈ replicasOf alive rf p) : id ∈ alive := by
  obtain ⟨i, hi, rfl⟩ := List.mem_map.mp h
  have hpos : 0 < alive.length := (Nat.zero_lt_of_lt (List.mem_range.mp hi)).trans_le hrf
  have hlt := Nat.mod_lt (p + i) hpos
  rw [List.getD_eq_getElem?_getD, List.getElem?_eq_getElem hlt]
  exact List.getElem_mem hlt

/-- The placement of a new topic is decided by the brokers alive at its creation. -/
theorem replicasAt_createTopic (topic : String) (partitions replicationFactor : ℕ) (s : State)
    (topic' : String) (k : ℕ) :
    (createTopic topic partitions replicationFactor s).2.2.replicasAt topic' k =
      if topic' = topic ∧ (createTopic topic partitions replicationFactor s).1 = .none then
        if k < partitions then some (replicasOf s.aliveIds (max replicationFactor 1) k) else none
      else s.replicasAt topic' k := by
  rw [createTopic]
  split
  · simp
  · split
    · simp
    · rw [replicasAt, partition_insert]
      by_cases htopic : topic' = topic
      · by_cases hk : k < partitions
        · simp [htopic, hk, newPartition]
        · simp [htopic, hk]
      · simp [htopic, replicasAt]

end State

/-! ## The placement over a run -/

private theorem State.Agrees.replicasAt_eq {s s' : State} (h : s.Agrees s') :
    s.replicasAt = s'.replicasAt := by
  funext topic k
  rw [State.replicasAt, h.partition_eq, State.replicasAt]

namespace Shared

/-- A property of the state in memory and of the one a restart would bring back. -/
structure Kept (Q : State → Prop) (c : Shared) : Prop where
  mem : Q c.mem
  disk : ∀ now, Q (loadSnapshot now c.disk)

/-- A property that states which look alike share is kept by what keeps it in memory. -/
theorem Kept.mutate {Q : State → Prop} (hagrees : ∀ s s' : State, s'.Agrees s → Q s → Q s')
    {c : Shared} (h : c.Kept Q) {m : Bool × State} (hm : Q m.2) (persisted : Bool) :
    (c.mutate persisted m).Kept Q := by
  have hversion : ∀ version, Q { m.2 with version } := fun version =>
    hagrees m.2 _ ⟨fun _ => rfl, fun _ => rfl⟩ hm
  rw [Shared.mutate]
  split
  · refine ⟨hversion _, fun now => ?_⟩
    cases persisted
    · exact h.disk now
    · exact hagrees _ _ (State.agrees_loadSnapshot now _) (hversion _)
  · exact ⟨hm, h.disk⟩

/-- A property of the placement, kept in this way. -/
abbrev Placed (P : (String → ℕ → Option (List UInt32)) → Prop) (c : Shared) : Prop :=
  c.Kept fun s => P s.replicasAt

variable {P : (String → ℕ → Option (List UInt32)) → Prop}

theorem Placed.mutate {c : Shared} (h : c.Placed P) {m : Bool × State} (hm : P m.2.replicasAt)
    (persisted : Bool) : (c.mutate persisted m).Placed P :=
  Kept.mutate (fun _ _ hsame hs => hsame.replicasAt_eq ▸ hs) h hm persisted

theorem Placed.handle {c : Shared} (h : c.Placed P) (req : Request) (now : ℕ) (persisted : Bool)
    (hcreate : ∀ topic partitions replicationFactor,
      req = .createTopic topic partitions replicationFactor →
        P (createTopic topic partitions replicationFactor c.mem).2.2.replicasAt) :
    (c.handle req now persisted).2.Placed P := by
  cases req with
  | registerBroker id addr peerAddr =>
    exact h.mutate ((State.replicasAt_registerBroker id addr peerAddr now _).symm ▸ h.mem) persisted
  | brokerHeartbeat id =>
    exact h.mutate ((State.replicasAt_brokerHeartbeat id now _).symm ▸ h.mem) persisted
  | controllerMetadata => exact h
  | createTopic topic partitions replicationFactor =>
    exact h.mutate (hcreate _ _ _ rfl) persisted
  | alterIsr topic partition leaderEpoch isr =>
    exact h.mutate ((State.replicasAt_alterIsr topic partition leaderEpoch isr _).symm ▸ h.mem)
      persisted
  | other => exact h

end Shared

namespace Run

variable {P : (String → ℕ → Option (List UInt32)) → Prop} {r r' : Run}

/-- The property also holds of every answer that was given out. -/
structure Places (P : (String → ℕ → Option (List UInt32)) → Prop) (r : Run) : Prop where
  shared : r.shared.Placed P
  answers : ∀ cluster ∈ r.answers, ∃ s : State, P s.replicasAt ∧ cluster = s.clusterMeta

theorem places_init (hempty : P State.empty.replicasAt) (config : ControllerConfig) :
    (init config).Places P :=
  ⟨⟨hempty, fun _ => hempty⟩, nofun⟩

/-- Only the creation of a topic can change the placement. -/
theorem Places.step (hempty : P State.empty.replicasAt) (h : r.Places P) {a : Action}
    (hcreate : ∀ topic partitions replicationFactor now persisted,
      a = .request (.createTopic topic partitions replicationFactor) now persisted →
        P (createTopic topic partitions replicationFactor r.mem).2.2.replicasAt)
    (hstep : r.step a = some r') : r'.Places P := by
  have hanswers : ∀ cluster ∈ r'.answers, cluster ∈ r.answers ∨
      cluster = r.mem.clusterMeta ∨ cluster = .default := by
    cases Run.steps_of_step hstep with
    | mutated m persisted hm hshared hpersisted hreported hanswers =>
      exact fun cluster hmem => .inl (hanswers ▸ hmem)
    | described hshared hreported hanswers =>
      intro cluster hmem
      rw [hanswers, List.mem_cons] at hmem
      exact hmem.symm.imp_right .inl
    | misdirected now persisted ha hshared hreported hanswers =>
      intro cluster hmem
      rw [hanswers, List.mem_cons] at hmem
      exact hmem.symm.imp_right .inr
    | restarted now ha hshared hreported hanswers =>
      exact fun cluster hmem => .inl (hanswers ▸ hmem)
  refine ⟨?_, fun cluster hmem => ?_⟩
  · cases a with
    | request req now persisted =>
      cases hstep
      refine h.shared.handle req now persisted ?_
      rintro topic partitions replicationFactor rfl
      exact hcreate topic partitions replicationFactor now persisted rfl
    | sweepLiveness now persisted =>
      cases hstep
      exact h.shared.mutate
        ((State.replicasAt_sweepLiveness _ now _).symm ▸ h.shared.mem) persisted
    | restart now =>
      cases hstep
      exact ⟨h.shared.disk now, h.shared.disk⟩
  · rcases hanswers cluster hmem with hold | rfl | rfl
    · exact h.answers cluster hold
    · exact ⟨_, h.shared.mem, rfl⟩
    · exact ⟨.empty, hempty, rfl⟩

end Run
end Replog.Controller
