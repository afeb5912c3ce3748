import Mathlib.Data.Nat.ModEq
import Replog.Controller.Contents

/-!
# Leaders, epochs and ISRs over a run of the controller

What one mutation can do to the tuple of a partition is said once, in `PartitionState.Evolves`.
From it follow the shape every tuple keeps and that an epoch never has two leaders.
-/

namespace Replog.Controller
open Replog.Library

/-- Distinct replicas, an ISR among them, and a leader that is missing or in the ISR. -/
structure PartitionState.WellFormed (p : PartitionState) : Prop where
  replicas_nodup : p.replicas.Nodup
  replicas_ne_nil : p.replicas ≠ []
  isr_ne_nil : p.isr ≠ []
  isr_subset : p.isr ⊆ p.replicas
  leader_mem : p.leader = -1 ∨ p.leader.toUInt32 ∈ p.isr

/-- What one step does to a partition, the brokers being alive as the step leaves them. -/
inductive PartitionState.Evolves (alive : UInt32 → Bool) :
    PartitionState → PartitionState → Prop where
  | same (p : PartitionState) : Evolves alive p p
  | elected (p : PartitionState) (newLeader : UInt32) (hmem : newLeader ∈ p.isr)
      (halive : alive newLeader = true) :
      Evolves alive p { p with leader := newLeader.toInt32, leaderEpoch := p.leaderEpoch + 1,
                               isr := p.isr.filter alive }
  | offline (p : PartitionState) : Evolves alive p { p with leader := -1 }
  | altered (p : PartitionState) (isr : List UInt32) (hne : isr ≠ [])
      (hleader : p.leader.toUInt32 ∈ isr) (hsub : isr ⊆ p.replicas) :
      Evolves alive p { p with isr }

namespace PartitionState

variable {alive : UInt32 → Bool} {p p' : PartitionState}

theorem evolves_elect (alive : UInt32 → Bool) (p : PartitionState) :
    p.Evolves alive (p.elect alive).2 := by
  rw [elect]
  split
  · exact .same p
  · split
    · rename_i newLeader hfind
      exact .elected p newLeader (List.mem_of_find?_eq_some hfind) (List.find?_some hfind)
    · split
      · exact .offline p
      · exact .same p

theorem evolves_alterIsr (alive : UInt32 → Bool) (leaderEpoch : ℕ) (isr : List UInt32)
    (p : PartitionState) : p.Evolves alive (p.alterIsr leaderEpoch isr).2.2 := by
  rw [alterIsr]
  split
  · exact .same p
  · split
    · exact .same p
    · rename_i hvalid
      split
      · exact .same p
      · simp only [not_or, not_not] at hvalid
        exact .altered p isr hvalid.1 hvalid.2.1 hvalid.2.2

theorem Evolves.wellFormed (h : Evolves alive p p') (hp : p.WellFormed) : p'.WellFormed := by
  cases h with
  | same => exact hp
  | elected newLeader hmem halive =>
    have hnew : newLeader ∈ p.isr.filter alive := List.mem_filter.mpr ⟨hmem, halive⟩
    exact {
      replicas_nodup := hp.replicas_nodup
      replicas_ne_nil := hp.replicas_ne_nil
      isr_ne_nil := List.ne_nil_of_mem hnew
      isr_subset := fun id hid => hp.isr_subset (List.mem_filter.mp hid).1
      leader_mem := .inr hnew }
  | offline => exact { hp with leader_mem := .inl rfl }
  | altered isr hne hleader hsub =>
    exact { hp with isr_ne_nil := hne, isr_subset := hsub, leader_mem := .inr hleader }

theorem Evolves.replicas_eq (h : Evolves alive p p') : p'.replicas = p.replicas := by
  cases h <;> rfl

/-- The epoch only grows, and it grows whenever the leader changes to a broker, which is then an
alive member of the ISR as it was. -/
structure Follows (alive : UInt32 → Bool) (p p' : PartitionState) : Prop where
  epoch_le : p.leaderEpoch ≤ p'.leaderEpoch
  epoch_lt : p'.leader ≠ p.leader → p'.leader ≠ -1 → p.leaderEpoch < p'.leaderEpoch
  leader_mem : p'.leader ≠ p.leader → p'.leader ≠ -1 → p'.leader.toUInt32 ∈ p.isr
  leader_alive : p'.leader ≠ p.leader → p'.leader ≠ -1 → alive p'.leader.toUInt32 = true

theorem Evolves.follows (h : Evolves alive p p') : p.Follows alive p' := by
  cases h with
  | same => exact ⟨le_rfl, fun h => absurd rfl h, fun h => absurd rfl h, fun h => absurd rfl h⟩
  | elected newLeader hmem halive =>
    exact ⟨Nat.le_succ _, fun _ _ => Nat.lt_succ_self _, fun _ _ => hmem, fun _ _ => halive⟩
  | offline =>
    exact ⟨le_rfl, fun _ h => absurd rfl h, fun _ h => absurd rfl h, fun _ h => absurd rfl h⟩
  | altered =>
    exact ⟨le_rfl, fun h => absurd rfl h, fun h => absurd rfl h, fun h => absurd rfl h⟩

end PartitionState

namespace State

def partition (s : State) (topic : String) (k : ℕ) : Option PartitionState :=
  (s.topics.lookup topic).bind fun parts => parts[k]?

def Sound (s : State) : Prop := ∀ topic k p, s.partition topic k = some p → p.WellFormed

/-- Old partitions evolve, and what is new is well formed. -/
structure Evolves (s s' : State) : Prop where
  old : ∀ topic k p, s.partition topic k = some p →
    ∃ p', s'.partition topic k = some p' ∧ p.Evolves s'.alive p'
  new : ∀ topic k p', s'.partition topic k = some p' →
    (∃ p, s.partition topic k = some p) ∨ p'.WellFormed

variable {s s' : State}

theorem Evolves.of_partition_eq (h : ∀ topic k, s'.partition topic k = s.partition topic k) :
    Evolves s s' where
  old topic k p hp := ⟨p, (h topic k).trans hp, .same p⟩
  new topic k p hp := .inl ⟨p, (h topic k).symm.trans hp⟩

theorem Evolves.sound (h : Evolves s s') (hs : s.Sound) : s'.Sound := by
  intro topic k p' hp'
  rcases h.new topic k p' hp' with ⟨p, hp⟩ | hwf
  · obtain ⟨q, hq, hev⟩ := h.old topic k p hp
    rw [hp', Option.some.injEq] at hq
    subst hq
    exact hev.wellFormed (hs topic k p hp)
  · exact hwf

theorem partition_electWhereNeeded (s : State) (topic : String) (k : ℕ) :
    (electWhereNeeded s).2.partition topic k =
      (s.partition topic k).map fun p => (p.elect s.alive).2 := by
  simp only [partition, electWhereNeeded, Assoc.lookup_mapVal]
  cases s.topics.lookup topic <;> simp

theorem evolves_electWhereNeeded (htopics : s'.topics = s.topics) :
    Evolves s (electWhereNeeded s').2 := by
  have hpart : ∀ topic k, s'.partition topic k = s.partition topic k := fun topic k => by
    rw [partition, htopics, partition]
  constructor
  · intro topic k p hp
    rw [partition_electWhereNeeded, hpart, hp]
    exact ⟨_, rfl, p.evolves_elect s'.alive⟩
  · intro topic k p' hp'
    rw [partition_electWhereNeeded, hpart, Option.map_eq_some_iff] at hp'
    obtain ⟨p, hp, -⟩ := hp'
    exact .inl ⟨p, hp⟩

theorem evolves_registerBroker (id : UInt32) (addr peerAddr : String) (now : ℕ) (s : State) :
    Evolves s (registerBroker id addr peerAddr now s).2 :=
  evolves_electWhereNeeded rfl

theorem evolves_brokerHeartbeat (id : UInt32) (now : ℕ) (s : State) :
    Evolves s (brokerHeartbeat id now s).2.2 := by
  rw [brokerHeartbeat]
  split
  · exact .of_partition_eq fun _ _ => rfl
  · split
    · exact evolves_electWhereNeeded rfl
    · exact .of_partition_eq fun _ _ => rfl

theorem evolves_sweepLiveness (cfg : ControllerConfig) (now : ℕ) (s : State) :
    Evolves s (sweepLiveness cfg now s).2 := by
  rw [sweepLiveness]
  split
  · exact evolves_electWhereNeeded rfl
  · exact .of_partition_eq fun _ _ => rfl

theorem partition_insert (s : State) (topic : String) (parts : List PartitionState)
    (topic' : String) (k : ℕ) :
    State.partition { s with topics := s.topics.insert topic parts } topic' k =
      if topic' = topic then parts[k]? else s.partition topic' k := by
  rw [partition]
  split
  · rename_i h
    rw [h, AList.lookup_insert, Option.bind_some]
  · rename_i h
    rw [AList.lookup_insert_ne h, partition]

theorem evolves_alterIsr (topic : String) (partition leaderEpoch : ℕ) (isr : List UInt32)
    (s : State) : Evolves s (alterIsr topic partition leaderEpoch isr s).2.2 := by
  rw [alterIsr]
  split
  · exact .of_partition_eq fun _ _ => rfl
  · rename_i parts hparts
    split
    · exact .of_partition_eq fun _ _ => rfl
    · rename_i p hp
      have hold : ∀ k, s.partition topic k = parts[k]? := fun k => by
        rw [State.partition, hparts, Option.bind_some]
      obtain ⟨hlt, -⟩ := List.getElem?_eq_some_iff.mp hp
      constructor
      · intro topic' k q hq
        rw [partition_insert]
        split
        · rename_i htopic
          rw [htopic, hold] at hq
          by_cases hk : partition = k
          · subst hk
            rw [hp, Option.some.injEq] at hq
            subst hq
            exact ⟨_, List.getElem?_set_self hlt, p.evolves_alterIsr _ leaderEpoch isr⟩
          · exact ⟨q, (List.getElem?_set_ne hk).trans hq, .same q⟩
        · exact ⟨q, hq, .same q⟩
      · intro topic' k p' hp'
        rw [partition_insert] at hp'
        split at hp'
        · rename_i htopic
          obtain ⟨hk, -⟩ := List.getElem?_eq_some_iff.mp hp'
          rw [List.length_set] at hk
          exact .inl ⟨parts[k], by rw [htopic, hold, List.getElem?_eq_getElem hk]⟩
        · exact .inl ⟨p', hp'⟩

theorem nodup_aliveIds (s : State) : s.aliveIds.Nodup := by
  have hsub : s.aliveIds.Sublist (s.brokers.sorted.map Prod.fst) := List.filter_sublist.map _
  exact hsub.nodup s.brokers.nodup_sorted

/-- Brokers in a row around the end are distinct as long as they do not lap. -/
theorem nodup_replicasOf {alive : List UInt32} (hnodup : alive.Nodup) {rf : ℕ}
    (hrf : rf ≤ alive.length) (p : ℕ) : (replicasOf alive rf p).Nodup := by
  refine List.Nodup.map_on ?_ List.nodup_range
  intro i hi j hj heq
  rw [List.mem_range] at hi hj
  have hpos : 0 < alive.length := by omega
  have hi' := Nat.mod_lt (p + i) hpos
  have hj' := Nat.mod_lt (p + j) hpos
  rw [List.getD_eq_getElem?_getD, List.getElem?_eq_getElem hi', List.getD_eq_getElem?_getD,
    List.getElem?_eq_getElem hj'] at heq
  have hmod : (p + i) % alive.length = (p + j) % alive.length := (hnodup.getElem_inj_iff).mp heq
  have hcancel : i % alive.length = j % alive.length := Nat.ModEq.add_left_cancel' p hmod
  rwa [Nat.mod_eq_of_lt (by omega), Nat.mod_eq_of_lt (by omega)] at hcancel

theorem wellFormed_newPartition {alive : List UInt32} (hnodup : alive.Nodup) {rf : ℕ}
    (hpos : 0 < rf) (hrf : rf ≤ alive.length) (p : ℕ) : (newPartition alive rf p).WellFormed := by
  have hlen : (replicasOf alive rf p).length = rf := by simp [replicasOf]
  have hne : replicasOf alive rf p ≠ [] := List.ne_nil_of_length_pos (by omega)
  refine ⟨nodup_replicasOf hnodup hrf p, hne, hne, fun _ h => h, .inr ?_⟩
  change (replicasOf alive rf p).headD 0 ∈ replicasOf alive rf p
  obtain ⟨id, rest, hcons⟩ := List.exists_cons_of_ne_nil hne
  rw [hcons]
  exact List.mem_cons_self

theorem evolves_createTopic (topic : String) (partitions replicationFactor : ℕ) (s : State) :
    Evolves s (createTopic topic partitions replicationFactor s).2.2 := by
  rw [createTopic]
  split
  · exact .of_partition_eq fun _ _ => rfl
  · rename_i hnew
    split
    · exact .of_partition_eq fun _ _ => rfl
    · rename_i hvalid
      have hrf : max replicationFactor 1 ≤ s.aliveIds.length := by omega
      constructor
      · intro topic' k p hp
        have hne : topic' ≠ topic := by
          intro heq
          rw [State.partition, heq, AList.lookup_eq_none.mpr hnew] at hp
          cases hp
        exact ⟨p, by rw [partition_insert, if_neg hne, hp], .same p⟩
      · intro topic' k p' hp'
        rw [partition_insert] at hp'
        split at hp'
        · right
          obtain ⟨j, -, rfl⟩ := List.mem_map.mp (List.mem_of_getElem? hp')
          exact wellFormed_newPartition s.nodup_aliveIds (by omega) hrf j
        · exact .inl ⟨p', hp'⟩

end State
end Replog.Controller
