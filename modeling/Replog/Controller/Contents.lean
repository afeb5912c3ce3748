import Replog.Controller.State

/-!
# Which states look alike from outside

Two states agree when they hold the same partitions and the same addresses, whoever is alive. A
mutation that reports no change and a restart from the last snapshot keep what can be seen.
-/

namespace Replog.Controller
open Replog.Library

def BrokerState.addresses (b : BrokerState) : String × String := (b.addr, b.peerAddr)

/-- The same partitions and the same addresses. -/
structure State.Agrees (s s' : State) : Prop where
  topics : ∀ topic, s.topics.lookup topic = s'.topics.lookup topic
  brokers : ∀ id, (s.brokers.lookup id).map BrokerState.addresses =
    (s'.brokers.lookup id).map BrokerState.addresses

namespace State

variable {s s' s'' : State}

theorem Agrees.refl (s : State) : s.Agrees s := ⟨fun _ => rfl, fun _ => rfl⟩

theorem Agrees.trans (h : s.Agrees s') (h' : s'.Agrees s'') : s.Agrees s'' :=
  ⟨fun topic => (h.topics topic).trans (h'.topics topic),
    fun id => (h.brokers id).trans (h'.brokers id)⟩

theorem Agrees.symm (h : s.Agrees s') : s'.Agrees s :=
  ⟨fun topic => (h.topics topic).symm, fun id => (h.brokers id).symm⟩

private theorem map_sorted_brokers (f : String × String → String) (s : State) :
    (s.brokers.sorted.map fun b => (b.1, f b.2.addresses)) =
      (s.brokers.mapVal fun _ b => f b.addresses).sorted := by
  rw [Assoc.sorted_mapVal]

private theorem Agrees.sorted_brokers (h : s.Agrees s') (f : String × String → String) :
    (s.brokers.sorted.map fun b => (b.1, f b.2.addresses)) =
      s'.brokers.sorted.map fun b => (b.1, f b.2.addresses) := by
  rw [map_sorted_brokers, map_sorted_brokers]
  refine Assoc.sorted_congr fun id => ?_
  have hid := congrArg (Option.map f) (h.brokers id)
  rw [Option.map_map, Option.map_map] at hid
  rw [Assoc.lookup_mapVal, Assoc.lookup_mapVal]
  exact hid

/-- States that agree and have one version give out the same metadata. -/
theorem Agrees.clusterMeta_eq (h : s.Agrees s') (hversion : s.version = s'.version) :
    s.clusterMeta = s'.clusterMeta := by
  rw [clusterMeta, clusterMeta, hversion, Assoc.sorted_congr h.topics]
  congr 1
  · exact h.sorted_brokers Prod.fst
  · exact h.sorted_brokers Prod.snd

theorem agrees_loadSnapshot (now : ℕ) (s : State) :
    (loadSnapshot now (some s.snapshot)).Agrees s where
  topics topic := s.topics.lookup_ofList_sorted topic
  brokers id := by
    have hlist : (s.snapshot.brokers.map fun b => (b.1, restoredBroker now b.2.1 b.2.2)) =
        (s.brokers.mapVal fun _ b => restoredBroker now b.addr b.peerAddr).sorted := by
      rw [Assoc.sorted_mapVal, State.snapshot, List.map_map]
      rfl
    rw [loadSnapshot, hlist, Assoc.lookup_ofList_sorted, Assoc.lookup_mapVal, Option.map_map]
    rfl

/-- A snapshot comes back the same at any time, but for the clock of the heartbeats. -/
theorem agrees_loadSnapshot_at (now now' : ℕ) (disk : Option Snapshot) :
    (loadSnapshot now disk).Agrees (loadSnapshot now' disk) := by
  cases disk with
  | none => exact .refl _
  | some snap =>
    have haddresses : ∀ now id,
        ((loadSnapshot now (some snap)).brokers.lookup id).map BrokerState.addresses =
          (Assoc.ofList snap.brokers).lookup id := fun now id => by
      rw [loadSnapshot, ← Assoc.lookup_ofList_map, List.map_map]
      exact congrArg (AList.lookup id <| Assoc.ofList ·) (List.map_id snap.brokers)
    exact ⟨fun _ => rfl, fun id => (haddresses now id).trans (haddresses now' id).symm⟩

theorem version_loadSnapshot_at (now now' : ℕ) (disk : Option Snapshot) :
    (loadSnapshot now disk).version = (loadSnapshot now' disk).version := by
  cases disk <;> rfl

end State

theorem PartitionState.elect_quiet {alive : UInt32 → Bool} {p : PartitionState}
    (h : (p.elect alive).1 = false) : (p.elect alive).2 = p := by
  rw [elect] at h ⊢
  split
  · rfl
  · rename_i hdead
    rw [if_neg hdead] at h
    split
    · rename_i newLeader hfind
      simp [hfind] at h
    · rename_i hfind
      rw [hfind] at h
      split
      · rename_i hleader
        simp [hleader] at h
      · rfl

private theorem PartitionState.alterIsr_quiet {leaderEpoch : ℕ} {isr : List UInt32} {p : PartitionState}
    (h : (p.alterIsr leaderEpoch isr).2.1 = false) : (p.alterIsr leaderEpoch isr).2.2 = p := by
  rw [alterIsr] at h ⊢
  split_ifs at h ⊢ <;> rfl

namespace State

theorem agrees_electWhereNeeded {s : State} (h : (electWhereNeeded s).1 = false) :
    (electWhereNeeded s).2.Agrees s where
  topics topic := by
    change (s.topics.mapVal _).lookup topic = s.topics.lookup topic
    rw [Assoc.lookup_mapVal]
    cases hparts : s.topics.lookup topic with
    | none => rfl
    | some parts =>
      have hmem := AList.mem_lookup_iff.mp (Option.mem_def.mpr hparts)
      rw [electWhereNeeded, List.any_eq_false] at h
      have hquiet := h _ hmem
      simp only [List.any_eq_true, not_exists, not_and, Bool.not_eq_true] at hquiet
      rw [Option.map_some, Option.some.injEq]
      refine (List.map_congr_left fun p hp => ?_).trans (List.map_id parts)
      exact PartitionState.elect_quiet (hquiet p hp)
  brokers id := rfl

theorem agrees_registerBroker {id : UInt32} {addr peerAddr : String} {now : ℕ} {s : State}
    (h : (registerBroker id addr peerAddr now s).1 = false) :
    (registerBroker id addr peerAddr now s).2.Agrees s := by
  rw [registerBroker, Bool.or_eq_false_iff] at h
  obtain ⟨hchanged, helected⟩ := h
  refine (agrees_electWhereNeeded helected).trans ⟨fun _ => rfl, fun id' => ?_⟩
  by_cases hid : id' = id
  · subst hid
    cases hb : s.brokers.lookup id' with
    | none => simp [hb] at hchanged
    | some b =>
      simp only [hb, Bool.or_eq_false_iff, decide_eq_false_iff_not, not_not] at hchanged
      rw [AList.lookup_insert, Option.map_some, Option.map_some, BrokerState.addresses,
        BrokerState.addresses, hchanged.1.2, hchanged.2]
  · rw [AList.lookup_insert_ne hid]

theorem agrees_brokerHeartbeat {id : UInt32} {now : ℕ} {s : State}
    (h : (brokerHeartbeat id now s).2.1 = false) : (brokerHeartbeat id now s).2.2.Agrees s := by
  rw [brokerHeartbeat] at h ⊢
  split
  · exact .refl s
  · rename_i b hb
    have hheard : State.Agrees { s with
        brokers := s.brokers.insert id { b with alive := true, lastHeartbeat := now } } s := by
      refine ⟨fun _ => rfl, fun id' => ?_⟩
      by_cases hid : id' = id
      · rw [hid, AList.lookup_insert, hb]
        rfl
      · rw [AList.lookup_insert_ne hid]
    simp only [hb] at h
    split
    · rename_i hdead
      rw [if_pos hdead] at h
      exact (agrees_electWhereNeeded h).trans hheard
    · exact hheard

theorem agrees_createTopic {topic : String} {partitions replicationFactor : ℕ} {s : State}
    (h : (createTopic topic partitions replicationFactor s).2.1 = false) :
    (createTopic topic partitions replicationFactor s).2.2.Agrees s := by
  rw [createTopic] at h ⊢
  split_ifs at h ⊢
  · exact .refl s
  · exact .refl s

theorem agrees_alterIsr {topic : String} {partition leaderEpoch : ℕ} {isr : List UInt32}
    {s : State} (h : (alterIsr topic partition leaderEpoch isr s).2.1 = false) :
    (alterIsr topic partition leaderEpoch isr s).2.2.Agrees s := by
  rw [alterIsr] at h ⊢
  split
  · exact .refl s
  · rename_i parts hparts
    simp only [hparts] at h
    split
    · exact .refl s
    · rename_i p hp
      simp only [hp] at h
      refine ⟨fun topic' => ?_, fun _ => rfl⟩
      obtain ⟨hlt, hget⟩ := List.getElem?_eq_some_iff.mp hp
      change (s.topics.insert topic (parts.set partition (p.alterIsr leaderEpoch isr).2.2)).lookup
        topic' = s.topics.lookup topic'
      rw [PartitionState.alterIsr_quiet h, ← hget, List.set_getElem_self hlt]
      by_cases htopic : topic' = topic
      · rw [htopic, AList.lookup_insert, hparts]
      · rw [AList.lookup_insert_ne htopic]

theorem agrees_sweepLiveness {cfg : ControllerConfig} {now : ℕ} {s : State}
    (h : (sweepLiveness cfg now s).1 = false) : (sweepLiveness cfg now s).2.Agrees s := by
  rw [sweepLiveness] at h ⊢
  split
  · rename_i hexpired
    rw [if_pos hexpired] at h
    cases h
  · refine ⟨fun _ => rfl, fun id => ?_⟩
    rw [Assoc.lookup_mapVal, Option.map_map]
    refine congrArg (Option.map · _) (funext fun b => ?_)
    rw [Function.comp_apply]
    split <;> rfl

end State
end Replog.Controller
