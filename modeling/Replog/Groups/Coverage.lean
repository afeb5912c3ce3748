import Replog.Controller.State
import Replog.Groups.Fencing
import Replog.Hosting.Standalone

/-!
# What an assignment covers

A broker assigns what it knows of the topics when the members of a group or their subscriptions
change. A topic that comes later waits for the next change.
-/

namespace Replog.Groups
open Replog.Library
open Replog.Hosting (Standalone)
open Replog.Controller (ClusterMeta)

/-- The calls of the coordinator, the partition counts being the broker's. -/
inductive GroupCall where
  | join (group memberId : String) (sessionTimeout : ℕ) (topics : List String) (now : ℕ)
  | heartbeat (group memberId : String) (generation now : ℕ)
  | leave (group memberId : String)
  | expire (now : ℕ)

def GroupCall.action (counts : String → Option ℕ) : GroupCall → Action
  | .join group memberId sessionTimeout topics now =>
    .join group memberId sessionTimeout topics counts now
  | .heartbeat group memberId generation now => .heartbeat group memberId generation now
  | .leave group memberId => .leave group memberId counts
  | .expire now => .expire counts now

/-- A broker with its topics, of its own or out of the cluster's metadata. -/
structure Coverage where
  coordinator : GroupCoordinator
  clustered : Bool
  standalone : Standalone
  clusterMeta : ClusterMeta
  /-- The counts that the current assignment of each group was made from. -/
  counted : String → String → Option ℕ

inductive Coverage.Action where
  | call (c : GroupCall)
  | createTopic (topic : String) (partitions replicationFactor opens : ℕ)
  | metadata (cluster : ClusterMeta)

namespace Coverage

def init (clustered : Bool) (standalone : Standalone) : Coverage where
  coordinator := .new
  clustered
  standalone
  clusterMeta := .default
  counted _ _ := none

def topicPartitions (s : Coverage) (topic : String) : Option ℕ :=
  if s.clustered then (s.clusterMeta.topics.find? (·.1 = topic)).map (·.2.length)
  else s.standalone.topics.lookup topic

def generation (s : Coverage) (group : String) : ℕ := (s.coordinator.group group).generation

/-- In a cluster the controller creates the topic, and the broker hears of it in the metadata. -/
def step (s : Coverage) : Action → Option Coverage
  | .call c =>
    let coordinator := s.coordinator.call (c.action s.topicPartitions)
    some { s with
      coordinator
      counted := fun group =>
        if (coordinator.group group).generation = s.generation group then s.counted group
        else s.topicPartitions }
  | .createTopic topic partitions replicationFactor opens =>
    if s.clustered || 1 < replicationFactor then some s
    else some { s with standalone := (s.standalone.createTopic topic partitions opens).2 }
  | .metadata cluster => some { s with clusterMeta := cluster }

/-- Calls, creations and updates come in any order. -/
def Free (_ : Coverage) (_ : Action) : Prop := True

instance (s : Coverage) (a : Action) : Decidable (Free s a) := inferInstanceAs (Decidable True)

end Coverage

def Group.Subscribes (g : Group) (m topic : String) : Prop :=
  ∃ topics, g.subscription m = some topics ∧ topic ∈ topics

/-- One member has the partition, and it subscribes to the topic. -/
def Group.AssignedOnce (g : Group) (topic : String) (p : ℕ) : Prop :=
  ∃ m, g.Subscribes m topic ∧ ∀ m', Owns g.assignment m' (topic, p) ↔ m' = m

/-- The partitions that were counted are handed out, each once and to a member that subscribes. -/
structure Group.Covers (g : Group) (counts : String → Option ℕ) : Prop where
  exclusive : Exclusive g.assignment
  owned : ∀ m topic p, Owns g.assignment m (topic, p) →
    g.Subscribes m topic ∧ ∃ n, counts topic = some n ∧ p < n
  assigned : ∀ m topic n p, g.Subscribes m topic → counts topic = some n → p < n →
    ∃ m', Owns g.assignment m' (topic, p)

namespace Group

variable {g g' : Group} {counts counts' : String → Option ℕ}

theorem subscribes_iff {m topic : String} :
    g.Subscribes m topic ↔ m ∈ subscribed g.members topic := by
  rw [mem_subscribed, Subscribes, subscription]
  constructor
  · rintro ⟨topics, htopics, hmem⟩
    obtain ⟨member, hm, rfl⟩ := Option.map_eq_some_iff.mp htopics
    exact ⟨member, hm, hmem⟩
  · rintro ⟨member, hm, hmem⟩
    exact ⟨member.topics, by rw [hm, Option.map_some], hmem⟩

private theorem covers_default (counts : String → Option ℕ) : Group.default.Covers counts where
  exclusive _ _ _ := by
    rintro ⟨slots, hslots, -⟩
    cases hslots
  owned m topic p := by
    rintro ⟨slots, hslots, -⟩
    cases hslots
  assigned m topic n p := by
    rintro ⟨topics, htopics, -⟩
    cases htopics

private theorem covers_rebalance (g : Group) (members : Assoc String Member)
    (counts : String → Option ℕ) : (g.rebalance members counts).Covers counts where
  exclusive := exclusive_assign members counts
  owned m topic p h := by
    rw [subscribes_iff]
    exact bounds_of_owns_assign h
  assigned m topic n p hm hcount hp := exists_owns_assign (subscribes_iff.mp hm) hcount hp

theorem Covers.kept (h : g.Covers counts) {members : Assoc String Member}
    (hsame : ∀ id, (members.lookup id).map Member.topics = g.subscription id) :
    Group.Covers { g with members } counts := by
  have hsub : ∀ m topic, Group.Subscribes { g with members } m topic ↔ g.Subscribes m topic :=
    fun m topic => by rw [Subscribes, subscription, hsame, Subscribes]
  refine ⟨h.exclusive, fun m topic p hm => ?_, fun m topic n p hm => ?_⟩
  · rw [hsub]
    exact h.owned m topic p hm
  · exact h.assigned m topic n p ((hsub m topic).mp hm)

private theorem Covers.assignedOnce (h : g.Covers counts) {m topic : String} {n p : ℕ}
    (hm : g.Subscribes m topic) (hcount : counts topic = some n) (hp : p < n) :
    g.AssignedOnce topic p := by
  obtain ⟨m', hm'⟩ := h.assigned m topic n p hm hcount hp
  refine ⟨m', (h.owned m' topic p hm').1, fun m'' => ⟨fun hm'' => ?_, fun heq => heq ▸ hm'⟩⟩
  exact h.exclusive m'' m' (topic, p) hm'' hm'

end Group

private theorem GroupCoordinator.updates_call (c : GroupCoordinator) (call : GroupCall)
    (counts : String → Option ℕ) (group : String) :
    (c.group group).Updates counts ((c.call (call.action counts)).group group) := by
  cases call with
  | join group' memberId sessionTimeout topics now =>
    exact c.updates_join group' memberId sessionTimeout topics counts now group
  | heartbeat group' memberId generation now =>
    exact c.updates_heartbeat group' memberId generation now counts group
  | leave group' memberId => exact c.updates_leave group' memberId counts group
  | expire now => exact c.updates_expire counts now group

namespace Coverage

variable {s s' : Coverage}

/-- Every group covers what was counted for it. -/
def Inv (s : Coverage) : Prop := ∀ group, (s.coordinator.group group).Covers (s.counted group)

theorem inv_init (clustered : Bool) (standalone : Standalone) :
    (init clustered standalone).Inv := fun _ => Group.covers_default _

/-- A group is left as it is, or is counted anew. -/
theorem call_cases {c : GroupCall} (hstep : step s (.call c) = some s') (group : String) :
    (∃ members : Assoc String Member,
      (∀ id, (members.lookup id).map Member.topics = (s.coordinator.group group).subscription id) ∧
        s'.coordinator.group group = { s.coordinator.group group with members } ∧
        s'.counted group = s.counted group) ∨
      ∃ members, s'.coordinator.group group =
          (s.coordinator.group group).rebalance members s.topicPartitions ∧
        s'.counted group = s.topicPartitions := by
  cases hstep
  have hupdates := s.coordinator.updates_call c s.topicPartitions group
  dsimp only
  generalize (s.coordinator.call (c.action s.topicPartitions)).group group = g at hupdates ⊢
  cases hupdates with
  | kept members hsame => exact .inl ⟨members, hsame, rfl, if_pos rfl⟩
  | rebalanced members => exact .inr ⟨members, rfl, if_neg (Nat.succ_ne_self _)⟩

theorem Inv.step (h : s.Inv) {a : Action} (hstep : s.step a = some s') : s'.Inv := by
  cases a with
  | call c =>
    intro group
    rcases call_cases hstep group with ⟨members, hsame, hgroup, hcounted⟩ |
        ⟨members, hgroup, hcounted⟩
    · rw [hgroup, hcounted]
      exact (h group).kept hsame
    · rw [hgroup, hcounted]
      exact Group.covers_rebalance _ members _
  | createTopic topic partitions replicationFactor opens =>
    rw [Coverage.step] at hstep
    split at hstep
    · cases hstep
      exact h
    · cases hstep
      exact h
  | metadata cluster =>
    cases hstep
    exact h

/-- In every run a group has each partition that was counted when its current assignment was made,
of a topic that a member subscribes to, assigned to exactly one member that subscribes, and no
other. Whenever the subscriptions of a group change, all that the broker knows is counted. -/
theorem partitions_assigned {clustered : Bool} {standalone : Standalone}
    (h : Reach step Free (init clustered standalone) s) (group : String) :
    (∀ m topic n, (s.coordinator.group group).Subscribes m topic →
      s.counted group topic = some n → ∀ p < n, (s.coordinator.group group).AssignedOnce topic p) ∧
    (∀ m topic p, Owns (s.coordinator.group group).assignment m (topic, p) →
      (s.coordinator.group group).Subscribes m topic ∧
        ∃ n, s.counted group topic = some n ∧ p < n) ∧
    ∀ a s', s.step a = some s' → (∃ m, (s'.coordinator.group group).subscription m ≠
      (s.coordinator.group group).subscription m) → s'.counted group = s'.topicPartitions := by
  have hinv : s.Inv := h.invariant (inv_init clustered standalone)
    fun _ _ _ hs _ hstep => hs.step hstep
  refine ⟨fun m topic n hm hcount p hp => (hinv group).assignedOnce hm hcount hp,
    (hinv group).owned, fun a s' hstep => ?_⟩
  rintro ⟨m, hchange⟩
  cases a with
  | call c =>
    have hsame : s'.topicPartitions = s.topicPartitions := by
      cases hstep
      rfl
    rcases call_cases hstep group with ⟨members, hkept, hgroup, -⟩ | ⟨members, -, hcounted⟩
    · exact absurd (hgroup ▸ hkept m) hchange
    · rw [hcounted, hsame]
  | createTopic topic partitions replicationFactor opens =>
    rw [step] at hstep
    split at hstep
    · cases hstep
      exact absurd rfl hchange
    · cases hstep
      exact absurd rfl hchange
  | metadata cluster =>
    cases hstep
    exact absurd rfl hchange

def joining (topic : String) : Action := .call (.join "g" "" 10 [topic] 0)

/-- Two members share the three partitions of a topic that is there first. -/
theorem partitions_assigned_shared : ∃ s,
    Reach step Free (init false { topics := ∅, dir := [] }) s ∧
      (s.coordinator.group "g").slotsOf "m-1" = [("t", 0), ("t", 1)] ∧
      ∀ p < 3, (s.coordinator.group "g").AssignedOnce "t" p := by
  obtain ⟨s, hs, hslots, hsub, hcount⟩ := Reach.exists_of_runSteps step Free
    (init false { topics := ∅, dir := [] })
    [.createTopic "t" 3 1 3, joining "t", joining "t"]
    (fun s => (s.coordinator.group "g").slotsOf "m-1" = [("t", 0), ("t", 1)] ∧
      (s.coordinator.group "g").subscription "m-1" = some ["t"] ∧ s.counted "g" "t" = some 3)
    (by decide)
  refine ⟨s, hs, hslots, (partitions_assigned hs "g").1 "m-1" "t" 3 ⟨["t"], hsub, ?_⟩ hcount⟩
  exact List.mem_singleton.mpr rfl

/-- A topic that is created after the join is nobody's. -/
theorem created_unassigned : ∃ s, Reach step Free (init false { topics := ∅, dir := [] }) s ∧
    ¬ ∀ group m topic n, (s.coordinator.group group).Subscribes m topic →
      s.topicPartitions topic = some n → ∀ p < n,
        (s.coordinator.group group).AssignedOnce topic p := by
  obtain ⟨s, hs, hslots, hsub, hcount⟩ := Reach.exists_of_runSteps step Free
    (init false { topics := ∅, dir := [] })
    [joining "t", .createTopic "t" 1 1 1]
    (fun s => (s.coordinator.group "g").assignment.entries = [⟨"m-1", []⟩] ∧
      (s.coordinator.group "g").subscription "m-1" = some ["t"] ∧ s.topicPartitions "t" = some 1)
    (by decide)
  refine ⟨s, hs, fun hall => ?_⟩
  obtain ⟨m, -, hm⟩ := hall "g" "m-1" "t" 1 ⟨["t"], hsub, List.mem_singleton.mpr rfl⟩ hcount 0
    Nat.one_pos
  obtain ⟨slots, hm, hmem⟩ := (hm m).mpr rfl
  have hentry := AList.mem_lookup_iff.mp (Option.mem_def.mpr hm)
  rw [hslots, List.mem_singleton] at hentry
  cases hentry
  cases hmem

end Coverage
end Replog.Groups
