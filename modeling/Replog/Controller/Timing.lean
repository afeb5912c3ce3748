import Replog.Controller.Replicas

/-!
# When a leader loses its partition

A run on a clock, with the time each broker was last heard from. Only a leader that has been alive
since the controller's own start is given the session timeout: a restart takes nobody for alive,
and whoever registers first then starts an election.
-/

namespace Replog.Controller
open Replog.Library

namespace Action

def now : Action → ℕ
  | .request _ now _ => now
  | .sweepLiveness now _ => now
  | .restart now => now

/-- The broker that the controller hears from. -/
def sender : Action → Option UInt32
  | .request (.registerBroker brokerId _ _) _ _ => some brokerId
  | .request (.brokerHeartbeat brokerId) _ _ => some brokerId
  | _ => none

/-- When the controller is started again. -/
def start : Action → Option ℕ
  | .restart now => some now
  | _ => none

theorem start_eq_some {a : Action} {now : ℕ} : a.start = some now ↔ a = .restart now := by
  cases a <;> simp [start]

end Action

namespace Shared

def act (c : Shared) : Action → Shared
  | .request req now persisted => (c.handle req now persisted).2
  | .sweepLiveness now persisted => c.sweepLiveness now persisted
  | .restart now => c.restart now

/-- An alive broker whose last heartbeat is too long ago. -/
def expired (c : Shared) (now : ℕ) (b : BrokerState) : Bool :=
  b.alive && decide (c.config.sessionTimeout < now - b.lastHeartbeat)

/-- Who is alive in the election that an action starts, if it starts one. -/
def electorate (c : Shared) : Action → Option (UInt32 → Bool)
  | .request (.registerBroker brokerId _ _) _ _ =>
    some fun id => id = brokerId || c.mem.alive id
  | .request (.brokerHeartbeat brokerId) _ _ =>
    match c.mem.brokers.lookup brokerId with
    | some b => if b.alive then none else some fun id => id = brokerId || c.mem.alive id
    | none => none
  | .sweepLiveness now _ =>
    if c.mem.brokers.entries.any fun b => c.expired now b.2 then
      some fun id => (c.mem.brokers.lookup id).elim false fun b => b.alive && !c.expired now b
    else none
  | _ => none

end Shared

structure Timed where
  shared : Shared
  clock : ℕ
  /-- When the controller was last started. -/
  started : ℕ
  /-- When each broker last registered or sent a heartbeat. -/
  heard : UInt32 → ℕ

namespace Timed

def init (config : ControllerConfig) : Timed where
  shared := { config, mem := .empty, disk := none }
  clock := 0
  started := 0
  heard _ := 0

def mem (s : Timed) : State := s.shared.mem

/-- Any action may come at any time, but time does not run backwards. -/
def step (s : Timed) (a : Action) : Option Timed :=
  if s.clock ≤ a.now then
    some {
      shared := s.shared.act a
      clock := a.now
      started := a.start.getD s.started
      heard := fun id => if a.sender = some id then a.now else s.heard id }
  else none

/-- The later of the broker's last registration or heartbeat and the controller's own start. -/
def lastHeard (s : Timed) (id : UInt32) : ℕ := max (s.heard id) s.started

/-- A step from `s` to `s'` takes a partition from its leader only if the leader was silent for
more than the session timeout. -/
def LeadersKept (s s' : Timed) : Prop :=
  ∀ topic k p p', s.mem.partition topic k = some p → s'.mem.partition topic k = some p' →
    p.leader ≠ -1 → p'.leader ≠ p.leader →
      s.shared.config.sessionTimeout < s'.clock - s'.lastHeard p.leader.toUInt32

/-- The election does not come too early for the leader of a partition: it is alive so far, it is
the one that calls, or the controller has been up for longer than the session timeout. A leader
whose id does not fit into an `i32` takes part in every election and has to come first in it. -/
def Spares (s : Timed) (a : Action) (alive : UInt32 → Bool) (p : PartitionState) : Prop :=
  if 0 ≤ p.leader then
    s.mem.alive p.leader.toUInt32 = true ∨ a.sender = some p.leader.toUInt32 ∨
      s.shared.config.sessionTimeout < a.now - s.started
  else
    p.isr.find? alive = some p.leader.toUInt32 ∨
      a.sender ≠ some p.leader.toUInt32 ∧
        s.shared.config.sessionTimeout < a.now - s.lastHeard p.leader.toUInt32

instance (s : Timed) (a : Action) (alive : UInt32 → Bool) (p : PartitionState) :
    Decidable (s.Spares a alive p) := by
  unfold Spares
  infer_instance

/-- An election spares every leader, and a restart finds the leaders in memory in the file. -/
def Patient (s : Timed) (a : Action) : Prop :=
  (∀ alive ∈ s.shared.electorate a, ∀ t ∈ s.mem.topics.entries, ∀ p ∈ t.2,
    p.leader ≠ -1 → s.Spares a alive p) ∧
  (∀ now ∈ a.start, ∀ topic k p p', s.mem.partition topic k = some p →
    (loadSnapshot now s.shared.disk).partition topic k = some p' → p.leader ≠ -1 →
      p'.leader = p.leader)

end Timed

/-! ## What an action does to the leaders -/

namespace Shared

/-- Either an election is held, or every leader stays and the leaders of new partitions are alive,
or the controller comes back from its file. -/
inductive Acts (c c' : Shared) (a : Action) : Prop where
  | elected (alive : UInt32 → Bool) (helectorate : c.electorate a = some alive)
      (halive : c'.mem.alive = alive)
      (hpartition : ∀ topic k, c'.mem.partition topic k =
        (c.mem.partition topic k).map fun p => (p.elect alive).2)
  | kept (helectorate : c.electorate a = none) (halive : c'.mem.alive = c.mem.alive)
      (hstart : a.start = none)
      (hpartition : ∀ topic k p', c'.mem.partition topic k = some p' →
        (∃ p, c.mem.partition topic k = some p ∧ p'.leader = p.leader) ∨
          c.mem.partition topic k = none ∧
            (0 ≤ p'.leader → c.mem.alive p'.leader.toUInt32 = true))
  | restarted (now : ℕ) (ha : a = .restart now) (hc' : c' = c.restart now)

variable {c : Shared}

theorem alive_insert (s : State) (brokerId : UInt32) (b : BrokerState) (id : UInt32) :
    State.alive { s with brokers := s.brokers.insert brokerId b } id =
      if id = brokerId then b.alive else s.alive id := by
  rw [State.alive]
  split
  · rename_i h
    rw [h, AList.lookup_insert]
    rfl
  · rename_i h
    rw [AList.lookup_insert_ne h]
    rfl

theorem alive_of_mem_aliveIds {s : State} {id : UInt32} (h : id ∈ s.aliveIds) :
    s.alive id = true := by
  obtain ⟨b, hb, rfl⟩ := List.mem_map.mp h
  obtain ⟨hb, halive⟩ := List.mem_filter.mp hb
  rw [State.alive, Assoc.mem_sorted.mp hb]
  exact halive

theorem Acts.of_elect {m : Bool × State} {a : Action} {persisted : Bool} {s : State}
    (helectorate : c.electorate a = some s.alive) (htopics : s.topics = c.mem.topics)
    (hm : m.2 = (electWhereNeeded s).2) : c.Acts (c.mutate persisted m) a := by
  refine .elected _ helectorate ?_ fun topic k => ?_
  · rw [alive_mutate, hm]
    rfl
  · rw [partition_mutate, hm, State.partition_electWhereNeeded, State.partition, htopics,
      State.partition]

theorem Acts.of_partition_eq {c' : Shared} {a : Action} (helectorate : c.electorate a = none)
    (hstart : a.start = none) (halive : c'.mem.alive = c.mem.alive)
    (hpartition : ∀ topic k, c'.mem.partition topic k = c.mem.partition topic k) :
    c.Acts c' a := by
  refine .kept helectorate halive hstart fun topic k p' hp' => .inl ⟨p', ?_, rfl⟩
  rw [← hp', hpartition]

private theorem acts_registerBroker (brokerId : UInt32) (addr peerAddr : String) (now : ℕ)
    (persisted : Bool) : c.Acts (c.act (.request (.registerBroker brokerId addr peerAddr) now
      persisted)) (.request (.registerBroker brokerId addr peerAddr) now persisted) := by
  let b : BrokerState := { addr, peerAddr, alive := true, lastHeartbeat := now }
  refine .of_elect (s := { c.mem with brokers := c.mem.brokers.insert brokerId b }) ?_ rfl rfl
  rw [electorate]
  refine congrArg some (funext fun id => ?_)
  rw [alive_insert]
  split
  · rename_i h
    simp [h, b]
  · rename_i h
    simp [h]

private theorem acts_brokerHeartbeat (brokerId : UInt32) (now : ℕ) (persisted : Bool) :
    c.Acts (c.act (.request (.brokerHeartbeat brokerId) now persisted))
      (.request (.brokerHeartbeat brokerId) now persisted) := by
  cases hb : c.mem.brokers.lookup brokerId with
  | none =>
    refine .of_partition_eq (by rw [electorate, hb]) rfl ?_ fun topic k => ?_
    · rw [act, handle, alive_mutate, brokerHeartbeat, hb]
    · rw [act, handle, partition_mutate, brokerHeartbeat, hb]
  | some b =>
    let s : State := { c.mem with
      brokers := c.mem.brokers.insert brokerId { b with alive := true, lastHeartbeat := now } }
    have halive : s.alive = fun id => decide (id = brokerId) || c.mem.alive id := by
      funext id
      rw [alive_insert]
      split
      · rename_i h
        simp [h]
      · rename_i h
        simp [h]
    cases hdead : b.alive with
    | false =>
      refine .of_elect (s := s) ?_ rfl ?_
      · simp only [electorate, hb, hdead, halive, Bool.false_eq_true, if_false]
      · simp only [hb, hdead, Bool.not_false, if_true]
        rfl
    | true =>
      have hm : (brokerHeartbeat brokerId now c.mem).2 = (false, s) := by
        simp only [brokerHeartbeat, hb, hdead, Bool.not_true, Bool.false_eq_true, if_false]
        rfl
      refine .of_partition_eq ?_ rfl ?_ fun topic k => ?_
      · simp only [electorate, hb, hdead, if_true]
      · rw [act, handle, alive_mutate, hm, halive]
        funext id
        by_cases hid : id = brokerId
        · rw [hid, State.alive, hb, Option.elim_some, hdead, Bool.or_true]
        · simp [hid]
      · rw [act, handle, partition_mutate, hm]
        rfl

private theorem acts_createTopic (topic : String) (partitions replicationFactor : ℕ) (now : ℕ)
    (persisted : Bool) :
    c.Acts (c.act (.request (.createTopic topic partitions replicationFactor) now persisted))
      (.request (.createTopic topic partitions replicationFactor) now persisted) := by
  refine .kept rfl ?_ rfl fun topic' k p' hp' => ?_
  · rw [act, handle, alive_mutate, createTopic]
    split_ifs <;> rfl
  · rw [act, handle, partition_mutate] at hp'
    by_cases htopic : topic ∈ c.mem.topics
    · rw [createTopic, if_pos htopic] at hp'
      exact .inl ⟨p', hp', rfl⟩
    · rw [createTopic, if_neg htopic] at hp'
      split at hp'
      · exact .inl ⟨p', hp', rfl⟩
      · rename_i hvalid
        rw [State.partition_insert] at hp'
        split at hp'
        · rename_i heq
          right
          constructor
          · rw [State.partition, heq, AList.lookup_eq_none.mpr htopic]
            rfl
          · obtain ⟨j, -, rfl⟩ := List.mem_map.mp (List.mem_of_getElem? hp')
            have hrf : max replicationFactor 1 ≤ c.mem.aliveIds.length := by omega
            have hwf := State.wellFormed_newPartition c.mem.nodup_aliveIds (by omega) hrf j
            intro hleader
            have hmem := hwf.leader_mem.resolve_left fun h => by simp [h] at hleader
            exact alive_of_mem_aliveIds (State.mem_of_mem_replicasOf hrf hmem)
        · exact .inl ⟨p', hp', rfl⟩

private theorem acts_alterIsr (topic : String) (partition leaderEpoch : ℕ) (isr : List UInt32) (now : ℕ)
    (persisted : Bool) :
    c.Acts (c.act (.request (.alterIsr topic partition leaderEpoch isr) now persisted))
      (.request (.alterIsr topic partition leaderEpoch isr) now persisted) := by
  refine .kept rfl ?_ rfl fun topic' k p' hp' => .inl ?_
  · rw [act, handle, alive_mutate, alterIsr]
    split
    · rfl
    · split <;> rfl
  · rw [act, handle, partition_mutate, alterIsr] at hp'
    split at hp'
    · exact ⟨p', hp', rfl⟩
    · rename_i parts hparts
      split at hp'
      · exact ⟨p', hp', rfl⟩
      · rename_i p hp
        rw [State.partition_insert] at hp'
        split at hp'
        · rename_i htopic
          have hold : c.mem.partition topic' k = parts[k]? := by
            rw [State.partition, htopic, hparts, Option.bind_some]
          rw [List.getElem?_set] at hp'
          split at hp'
          · rename_i hk
            subst hk
            rw [if_pos (List.getElem?_eq_some_iff.mp hp).1, Option.some.injEq] at hp'
            subst hp'
            refine ⟨p, hold.trans hp, ?_⟩
            rw [PartitionState.alterIsr]
            split_ifs <;> rfl
          · exact ⟨p', hold.trans hp', rfl⟩
        · exact ⟨p', hp', rfl⟩

private theorem acts_sweepLiveness (now : ℕ) (persisted : Bool) :
    c.Acts (c.act (.sweepLiveness now persisted)) (.sweepLiveness now persisted) := by
  let s : State := { c.mem with
    brokers := c.mem.brokers.mapVal fun _ b =>
      if c.expired now b then { b with alive := false } else b }
  have halive : s.alive = fun id =>
      (c.mem.brokers.lookup id).elim false fun b => b.alive && !c.expired now b := by
    funext id
    rw [State.alive, Assoc.lookup_mapVal]
    cases c.mem.brokers.lookup id with
    | none => rfl
    | some b =>
      rw [Option.map_some, Option.elim_some, Option.elim_some]
      split
      · rename_i h
        simp [h]
      · rename_i h
        simp [h]
  have hm : Controller.sweepLiveness c.config now c.mem =
      if c.mem.brokers.entries.any fun b => c.expired now b.2 then (true, (electWhereNeeded s).2)
      else (false, s) := rfl
  by_cases hany : c.mem.brokers.entries.any fun b => c.expired now b.2
  · refine .of_elect (s := s) ?_ rfl ?_
    · rw [electorate, if_pos hany, halive]
    · rw [hm, if_pos hany]
  · refine .of_partition_eq ?_ rfl ?_ fun topic k => ?_
    · rw [electorate, if_neg hany]
    · rw [act, Shared.sweepLiveness, alive_mutate, hm, if_neg hany, halive]
      funext id
      rw [State.alive]
      cases hb : c.mem.brokers.lookup id with
      | none => rfl
      | some b =>
        have hmem := AList.mem_lookup_iff.mp (Option.mem_def.mpr hb)
        have hrecent : c.expired now b = false := by
          rw [Bool.not_eq_true, List.any_eq_false] at hany
          simpa using hany _ hmem
        simp [hrecent]
    · rw [act, Shared.sweepLiveness, partition_mutate, hm, if_neg hany]
      rfl

theorem acts_act (c : Shared) (a : Action) : c.Acts (c.act a) a := by
  cases a with
  | request req now persisted =>
    cases req with
    | registerBroker id addr peerAddr => exact acts_registerBroker id addr peerAddr now persisted
    | brokerHeartbeat id => exact acts_brokerHeartbeat id now persisted
    | controllerMetadata => exact .of_partition_eq rfl rfl rfl fun _ _ => rfl
    | createTopic topic partitions replicationFactor =>
      exact acts_createTopic topic partitions replicationFactor now persisted
    | alterIsr topic partition leaderEpoch isr =>
      exact acts_alterIsr topic partition leaderEpoch isr now persisted
    | other => exact .of_partition_eq rfl rfl rfl fun _ _ => rfl
  | sweepLiveness now persisted => exact acts_sweepLiveness now persisted
  | restart now => exact .restarted now rfl rfl

/-- Who calls votes, a vote that is lost was lost to the session timeout, and nobody else gets
one. -/
structure Votes (c : Shared) (a : Action) (alive : UInt32 → Bool) : Prop where
  sender : ∀ id, a.sender = some id → alive id = true
  lost : ∀ id, c.mem.alive id = true → alive id = false →
    ∃ b, c.mem.brokers.lookup id = some b ∧ c.config.sessionTimeout < a.now - b.lastHeartbeat
  held : ∀ id, alive id = true → c.mem.alive id = true ∨ a.sender = some id

theorem votes_sender {a : Action} {brokerId : UInt32} (hsender : a.sender = some brokerId) :
    c.Votes a fun id => id = brokerId || c.mem.alive id where
  sender id hid := by
    rw [hsender, Option.some.injEq] at hid
    simp [hid]
  lost id halive hdead := by simp [halive] at hdead
  held id halive := by
    rw [Bool.or_eq_true, decide_eq_true_eq] at halive
    rcases halive with rfl | halive
    · exact .inr hsender
    · exact .inl halive

theorem start_of_electorate {a : Action} {alive : UInt32 → Bool}
    (h : c.electorate a = some alive) : a.start = none := by
  cases a with
  | request req now persisted => rfl
  | sweepLiveness now persisted => rfl
  | restart now => cases h

private theorem votes_of_electorate {a : Action} {alive : UInt32 → Bool}
    (h : c.electorate a = some alive) : c.Votes a alive := by
  cases a with
  | request req now persisted =>
    cases req with
    | registerBroker id addr peerAddr =>
      cases h
      exact votes_sender rfl
    | brokerHeartbeat id =>
      rw [electorate] at h
      split at h
      · split at h
        · cases h
        · cases h
          exact votes_sender rfl
      · cases h
    | controllerMetadata => cases h
    | createTopic topic partitions replicationFactor => cases h
    | alterIsr topic partition leaderEpoch isr => cases h
    | other => cases h
  | sweepLiveness now persisted =>
    rw [electorate] at h
    split at h
    · cases h
      refine ⟨nofun, fun id halive hdead => ?_, fun id halive => ?_⟩
      · rw [State.alive] at halive
        cases hb : c.mem.brokers.lookup id with
        | none => simp [hb] at halive
        | some b =>
          refine ⟨b, rfl, ?_⟩
          rw [hb, Option.elim_some] at halive hdead
          rw [halive, Bool.true_and, Bool.not_eq_false', expired, halive, Bool.true_and,
            decide_eq_true_eq] at hdead
          exact hdead
      · left
        rw [State.alive]
        cases hb : c.mem.brokers.lookup id with
        | none => simp [hb] at halive
        | some b =>
          rw [hb, Option.elim_some, Bool.and_eq_true] at halive
          exact halive.1
    · cases h
  | restart now => cases h

private theorem alive_of_electorate_eq_none {a : Action} (h : c.electorate a = none) {id : UInt32}
    (hsender : a.sender = some id) (hknown : id ∈ c.mem.brokers) : c.mem.alive id = true := by
  cases a with
  | request req now persisted =>
    cases req with
    | registerBroker id' addr peerAddr => cases h
    | brokerHeartbeat id' =>
      cases hsender
      obtain ⟨b, hb⟩ := Option.isSome_iff_exists.mp (AList.lookup_isSome.mpr hknown)
      rw [electorate, hb] at h
      rw [State.alive, hb, Option.elim_some]
      by_contra hdead
      simp [hdead] at h
    | controllerMetadata => cases hsender
    | createTopic topic partitions replicationFactor => cases hsender
    | alterIsr topic partition leaderEpoch isr => cases hsender
    | other => cases hsender
  | sweepLiveness now persisted => cases hsender
  | restart now => cases hsender

end Shared

/-! ## Who is known and when they were heard from -/

/-- Partitions are well formed and placed on brokers that have registered. -/
def State.Registered (s : State) : Prop :=
  ∀ topic k p, s.partition topic k = some p → p.WellFormed ∧ ∀ id ∈ p.replicas, id ∈ s.brokers

theorem State.Agrees.registered {s s' : State} (h : s'.Agrees s) (hs : s.Registered) :
    s'.Registered := by
  intro topic k p hp
  rw [h.partition_eq] at hp
  refine ⟨(hs topic k p hp).1, fun id hid => ?_⟩
  have hknown := AList.lookup_isSome.mpr ((hs topic k p hp).2 id hid)
  have hid := congrArg Option.isSome (h.brokers id)
  rw [Option.isSome_map, Option.isSome_map, hknown] at hid
  exact AList.lookup_isSome.mp hid

/-- A mutation at `now` on behalf of `sender`: it is the time of the sender's last heartbeat if the
sender is known, and new partitions are placed on brokers known before. -/
structure State.Hears (s : State) (sender : Option UInt32) (now : ℕ) (m : Bool × State) :
    Prop where
  mutates : s.Mutates m
  silent : ∀ id, sender ≠ some id → (m.2.brokers.lookup id).map BrokerState.lastHeartbeat =
    (s.brokers.lookup id).map BrokerState.lastHeartbeat
  sent : ∀ id, sender = some id →
    (m.2.brokers.lookup id).map BrokerState.lastHeartbeat = some now ∨
      id ∉ s.brokers ∧ id ∉ m.2.brokers
  placed : ∀ topic k p, s.partition topic k = none → m.2.partition topic k = some p →
    ∀ id ∈ p.replicas, id ∈ s.brokers

namespace State

variable {s : State} {sender : Option UInt32} {now : ℕ} {m : Bool × State}

theorem Hears.known (h : s.Hears sender now m) {id : UInt32} (hid : id ∈ s.brokers) :
    id ∈ m.2.brokers := by
  rw [← AList.lookup_isSome] at hid ⊢
  by_cases hsender : sender = some id
  · rcases h.sent id hsender with hsent | ⟨hunknown, -⟩
    · rw [← Option.isSome_map (f := BrokerState.lastHeartbeat), hsent]
      rfl
    · exact absurd (AList.lookup_isSome.mp hid) hunknown
  · rw [← Option.isSome_map (f := BrokerState.lastHeartbeat), h.silent id hsender,
      Option.isSome_map, hid]

theorem Hears.registered (h : s.Hears sender now m) (hs : s.Registered) : m.2.Registered := by
  intro topic k p' hp'
  cases hp : s.partition topic k with
  | none =>
    refine ⟨?_, fun id hid => h.known (h.placed topic k p' hp hp' id hid)⟩
    rcases h.mutates.evolves.new topic k p' hp' with ⟨p, hold⟩ | hwf
    · rw [hp] at hold
      cases hold
    · exact hwf
  | some p =>
    obtain ⟨q, hq, hev⟩ := h.mutates.evolves.old topic k p hp
    rw [hp', Option.some.injEq] at hq
    subst hq
    obtain ⟨hwf, hknown⟩ := hs topic k p hp
    exact ⟨hev.wellFormed hwf, fun id hid => h.known (hknown id (hev.replicas_eq ▸ hid))⟩

private theorem mem_brokers_of_alive {id : UInt32} (h : s.alive id = true) : id ∈ s.brokers := by
  rw [alive] at h
  rw [← AList.lookup_isSome]
  cases hb : s.brokers.lookup id with
  | none => simp [hb] at h
  | some b => rfl

/-- Mutations that create no topic place nothing. -/
theorem placed_of_replicasAt (h : m.2.replicasAt = s.replicasAt) (topic : String) (k : ℕ)
    (p : PartitionState) (hnone : s.partition topic k = none)
    (hp : m.2.partition topic k = some p) : ∀ id ∈ p.replicas, id ∈ s.brokers := by
  have hat := congrFun (congrFun h topic) k
  rw [replicasAt, hp, replicasAt, hnone] at hat
  cases hat

theorem lookup_insert_lastHeartbeat {brokers : Assoc UInt32 BrokerState} {brokerId : UInt32}
    {b : BrokerState} {id : UInt32} (h : some brokerId ≠ some id) :
    ((brokers.insert brokerId b).lookup id).map BrokerState.lastHeartbeat =
      (brokers.lookup id).map BrokerState.lastHeartbeat := by
  rw [AList.lookup_insert_ne fun heq => h (congrArg some heq.symm)]

private theorem hears_registerBroker (brokerId : UInt32) (addr peerAddr : String) (now : ℕ) (s : State) :
    s.Hears (some brokerId) now (registerBroker brokerId addr peerAddr now s) where
  mutates := mutates_registerBroker brokerId addr peerAddr now s
  silent _ hid := lookup_insert_lastHeartbeat hid
  sent id hid := by
    cases hid
    left
    exact congrArg (Option.map BrokerState.lastHeartbeat) (AList.lookup_insert s.brokers)
  placed := placed_of_replicasAt (replicasAt_registerBroker brokerId addr peerAddr now s)

private theorem hears_brokerHeartbeat (brokerId : UInt32) (now : ℕ) (s : State) :
    s.Hears (some brokerId) now (brokerHeartbeat brokerId now s).2 := by
  refine ⟨mutates_brokerHeartbeat brokerId now s, ?_, ?_,
    placed_of_replicasAt (replicasAt_brokerHeartbeat brokerId now s)⟩
  · intro id hid
    rw [brokerHeartbeat]
    split
    · rfl
    · split
      · exact lookup_insert_lastHeartbeat hid
      · exact lookup_insert_lastHeartbeat hid
  · intro id hid
    cases hid
    rw [brokerHeartbeat]
    split
    · rename_i hb
      exact .inr ⟨AList.lookup_eq_none.mp hb, AList.lookup_eq_none.mp hb⟩
    · left
      split
      · exact congrArg (Option.map BrokerState.lastHeartbeat) (AList.lookup_insert s.brokers)
      · exact congrArg (Option.map BrokerState.lastHeartbeat) (AList.lookup_insert s.brokers)

private theorem hears_createTopic (topic : String) (partitions replicationFactor now : ℕ) (s : State) :
    s.Hears none now (createTopic topic partitions replicationFactor s).2 := by
  have hbrokers : (createTopic topic partitions replicationFactor s).2.2.brokers = s.brokers := by
    rw [createTopic]
    split_ifs <;> rfl
  refine ⟨mutates_createTopic topic partitions replicationFactor s,
    fun id _ => by rw [hbrokers], fun _ hid => (by cases hid), fun topic' k p hnone hp id hid => ?_⟩
  have hat := replicasAt_createTopic topic partitions replicationFactor s topic' k
  rw [replicasAt, hp, Option.map_some] at hat
  split at hat
  · rename_i hcreated
    split at hat
    · have hrf : max replicationFactor 1 ≤ s.aliveIds.length := by
        have hnone := hcreated.2
        rw [createTopic] at hnone
        split_ifs at hnone
        omega
      rw [Option.some.inj hat] at hid
      exact mem_brokers_of_alive (Shared.alive_of_mem_aliveIds (mem_of_mem_replicasOf hrf hid))
    · cases hat
  · rw [replicasAt, hnone] at hat
    cases hat

private theorem hears_alterIsr (topic : String) (partition leaderEpoch : ℕ) (isr : List UInt32) (now : ℕ)
    (s : State) : s.Hears none now (alterIsr topic partition leaderEpoch isr s).2 := by
  have hbrokers : (alterIsr topic partition leaderEpoch isr s).2.2.brokers = s.brokers := by
    rw [alterIsr]
    split
    · rfl
    · split <;> rfl
  exact ⟨mutates_alterIsr topic partition leaderEpoch isr s, fun id _ => by rw [hbrokers],
    fun _ hid => (by cases hid),
    placed_of_replicasAt (replicasAt_alterIsr topic partition leaderEpoch isr s)⟩

private theorem hears_sweepLiveness (cfg : ControllerConfig) (now : ℕ) (s : State) :
    s.Hears none now (sweepLiveness cfg now s) := by
  refine ⟨mutates_sweepLiveness cfg now s, fun id _ => ?_, nofun,
    placed_of_replicasAt (replicasAt_sweepLiveness cfg now s)⟩
  have hbrokers : ((sweepLiveness cfg now s).2.brokers.lookup id).map BrokerState.lastHeartbeat =
      ((s.brokers.lookup id).map fun b => if b.alive && decide
        (cfg.sessionTimeout < now - b.lastHeartbeat) then { b with alive := false } else b).map
          BrokerState.lastHeartbeat := by
    rw [sweepLiveness]
    split
    · rw [electWhereNeeded, Assoc.lookup_mapVal]
    · rw [Assoc.lookup_mapVal]
  rw [hbrokers, Option.map_map]
  refine congrArg (Option.map · _) (funext fun b => ?_)
  rw [Function.comp_apply]
  split <;> rfl

theorem hears_refl (s : State) : s.Hears none now (false, s) where
  mutates := ⟨.of_partition_eq fun _ _ => rfl, rfl, fun _ => .refl s⟩
  silent _ _ := rfl
  sent := nofun
  placed := placed_of_replicasAt rfl

end State

namespace Shared

variable {c : Shared}

theorem act_hears (c : Shared) {a : Action} (h : a.start = none) :
    ∃ m persisted, c.act a = c.mutate persisted m ∧ c.mem.Hears a.sender a.now m := by
  cases a with
  | request req now persisted =>
    cases req with
    | registerBroker id addr peerAddr =>
      exact ⟨_, persisted, rfl, State.hears_registerBroker id addr peerAddr now _⟩
    | brokerHeartbeat id => exact ⟨_, persisted, rfl, State.hears_brokerHeartbeat id now _⟩
    | controllerMetadata => exact ⟨_, persisted, rfl, State.hears_refl _⟩
    | createTopic topic partitions replicationFactor =>
      exact ⟨_, persisted, rfl, State.hears_createTopic topic partitions replicationFactor now _⟩
    | alterIsr topic partition leaderEpoch isr =>
      exact ⟨_, persisted, rfl, State.hears_alterIsr topic partition leaderEpoch isr now _⟩
    | other => exact ⟨_, persisted, rfl, State.hears_refl _⟩
  | sweepLiveness now persisted =>
    exact ⟨_, persisted, rfl, State.hears_sweepLiveness _ now _⟩
  | restart now => cases h

private theorem brokers_mutate (c : Shared) (persisted : Bool) (m : Bool × State) :
    (c.mutate persisted m).mem.brokers = m.2.brokers := by
  rw [mutate]
  split <;> rfl

theorem Kept.act (h : c.Kept State.Registered) (a : Action) :
    (c.act a).Kept State.Registered := by
  cases hstart : a.start with
  | some now =>
    rw [Action.start_eq_some.mp hstart]
    exact ⟨h.disk now, h.disk⟩
  | none =>
    obtain ⟨m, persisted, hm, hhears⟩ := c.act_hears hstart
    rw [hm]
    exact h.mutate (fun _ _ => State.Agrees.registered) (hhears.registered h.mem) persisted

end Shared

/-! ## Runs on the clock -/

private theorem PartitionState.alive_of_elect {alive : UInt32 → Bool} {p : PartitionState}
    (h : 0 ≤ (p.elect alive).2.leader) : alive (p.elect alive).2.leader.toUInt32 = true := by
  rw [elect] at h ⊢
  split
  · rename_i hled
    exact hled.2
  · rename_i hdead
    rw [if_neg hdead] at h
    cases hfind : p.isr.find? alive with
    | some newLeader => exact List.find?_some hfind
    | none =>
      rw [hfind] at h
      by_cases hleader : p.leader = -1
      · simp [hleader] at h
      · simp [hleader] at h

private theorem lastHeartbeat_loadSnapshot {now : ℕ} {disk : Option Snapshot} {id : UInt32}
    {b : BrokerState} (h : (loadSnapshot now disk).brokers.lookup id = some b) :
    b.alive = false ∧ b.lastHeartbeat = now := by
  cases disk with
  | none => simp [loadSnapshot, State.empty] at h
  | some snap =>
    have hmem := Assoc.mem_of_lookup_ofList h
    obtain ⟨e, -, he⟩ := List.mem_map.mp hmem
    cases he
    exact ⟨rfl, rfl⟩

namespace Timed

/-- Any action may come at any time that is not in the past. -/
def Free (_ : Timed) (_ : Action) : Prop := True

instance (s : Timed) (a : Action) : Decidable (Free s a) := inferInstanceAs (Decidable True)

/-- The table holds when each broker was last heard from, and a leader that is not alive has not
been heard from since the start. -/
structure Inv (s : Timed) : Prop where
  registered : s.shared.Kept State.Registered
  started_le : s.started ≤ s.clock
  heard_le : ∀ id, s.heard id ≤ s.clock
  heartbeat : ∀ id b, s.mem.brokers.lookup id = some b → b.lastHeartbeat = s.lastHeard id
  led : ∀ topic k p, s.mem.partition topic k = some p → 0 ≤ p.leader →
    s.mem.alive p.leader.toUInt32 = true ∨ s.lastHeard p.leader.toUInt32 = s.started

theorem inv_init (config : ControllerConfig) : (init config).Inv where
  registered := ⟨nofun, fun _ => nofun⟩
  started_le := le_rfl
  heard_le _ := le_rfl
  heartbeat := nofun
  led := nofun

variable {s s' : Timed}

theorem step_eq {a : Action} (hstep : s.step a = some s') :
    s.clock ≤ a.now ∧ s' = {
      shared := s.shared.act a
      clock := a.now
      started := a.start.getD s.started
      heard := fun id => if a.sender = some id then a.now else s.heard id } := by
  rw [step] at hstep
  split at hstep
  · rename_i hclock
    exact ⟨hclock, (Option.some.inj hstep).symm⟩
  · cases hstep

/-- Nothing is heard with a restart, and a call is heard when it comes. -/
theorem Inv.lastHeard_step (h : s.Inv) {a : Action} (hstep : s.step a = some s') (id : UInt32) :
    s'.lastHeard id = if a.sender = some id ∨ a.start ≠ none then a.now else s.lastHeard id := by
  obtain ⟨hclock, rfl⟩ := step_eq hstep
  have hheard := h.heard_le id
  have hstarted := h.started_le
  rw [lastHeard, lastHeard]
  dsimp only
  cases hstart : a.start with
  | some now =>
    rw [Action.start_eq_some] at hstart
    subst hstart
    rw [Action.now] at hclock
    simp only [Action.sender, reduceCtorEq, if_false, Option.getD_some, ne_eq, not_false_eq_true,
      or_true, if_true, Action.now]
    omega
  | none =>
    simp only [Option.getD_none, ne_eq, not_true_eq_false, or_false]
    split
    · omega
    · rfl

theorem Inv.step (h : s.Inv) {a : Action} (hstep : s.step a = some s') : s'.Inv := by
  have hlast := h.lastHeard_step hstep
  obtain ⟨hclock, hs'⟩ := step_eq hstep
  have hmem : s'.mem = (s.shared.act a).mem := by rw [hs']; rfl
  refine ⟨?_, ?_, ?_, ?_, ?_⟩
  · rw [hs']
    exact h.registered.act a
  · rw [hs']
    cases hstart : a.start with
    | some now =>
      rw [Action.start_eq_some.mp hstart]
      exact le_rfl
    | none => exact h.started_le.trans hclock
  · intro id
    rw [hs']
    dsimp only
    split
    · exact le_rfl
    · exact (h.heard_le id).trans hclock
  · intro id b hb
    rw [hmem] at hb
    rw [hlast]
    cases hstart : a.start with
    | some now =>
      rw [Action.start_eq_some] at hstart
      subst hstart
      rw [if_pos (.inr (by simp))]
      exact (lastHeartbeat_loadSnapshot hb).2
    | none =>
      obtain ⟨m, persisted, hm, hhears⟩ := s.shared.act_hears hstart
      rw [hm, Shared.brokers_mutate] at hb
      by_cases hsender : a.sender = some id
      · rw [if_pos (.inl hsender)]
        rcases hhears.sent id hsender with hsent | ⟨-, hunknown⟩
        · rw [hb, Option.map_some, Option.some.injEq] at hsent
          exact hsent
        · rw [AList.lookup_eq_none.mpr hunknown] at hb
          cases hb
      · rw [if_neg (by simp [hsender])]
        have hsilent := hhears.silent id hsender
        rw [hb, Option.map_some, eq_comm, Option.map_eq_some_iff] at hsilent
        obtain ⟨b', hb', heq⟩ := hsilent
        rw [← heq]
        exact h.heartbeat id b' hb'
  · intro topic k p' hp' hleader
    rw [hmem] at hp' ⊢
    cases s.shared.acts_act a with
    | elected alive helectorate halive hpartition =>
      left
      rw [hpartition, Option.map_eq_some_iff] at hp'
      obtain ⟨p, -, rfl⟩ := hp'
      rw [halive]
      exact PartitionState.alive_of_elect hleader
    | kept helectorate halive hstart hpartition =>
      rw [halive]
      rcases hpartition topic k p' hp' with ⟨p, hp, heq⟩ | ⟨-, hnew⟩
      · rw [heq] at hleader ⊢
        rcases h.led topic k p hp hleader with hled | hled
        · exact .inl hled
        · by_cases hsender : a.sender = some p.leader.toUInt32
          · left
            -- who leads a partition is known
            obtain ⟨hwf, hknown⟩ := h.registered.mem topic k p hp
            have hne : p.leader ≠ -1 := fun hoff => by simp [hoff] at hleader
            have hisr := hwf.leader_mem.resolve_left hne
            exact Shared.alive_of_electorate_eq_none helectorate hsender
              (hknown _ (hwf.isr_subset hisr))
          · right
            rw [hlast, if_neg (by simp [hsender, hstart]), hled, hs', hstart]
            rfl
      · exact .inl (hnew hleader)
    | restarted now ha hc' =>
      right
      subst ha
      rw [hlast, if_pos (.inr (by simp [Action.start])), hs']
      rfl

theorem inv_of_reach {config : ControllerConfig} (h : Reach step Free (init config) s) : s.Inv :=
  h.invariant (inv_init config) fun _ _ _ hs _ hstep => hs.step hstep

/-- A leader that is missing from an election loses its partition, and one whose id fits into an
`i32` keeps it by being there. -/
private theorem elect_leader_eq_iff {alive : UInt32 → Bool} {p : PartitionState} (hleader : p.leader ≠ -1) :
    (p.elect alive).2.leader = p.leader ↔
      if 0 ≤ p.leader then alive p.leader.toUInt32 = true
      else p.isr.find? alive = some p.leader.toUInt32 := by
  have hcast : ∀ id : UInt32, id.toInt32 = p.leader ↔ id = p.leader.toUInt32 := fun id =>
    ⟨fun h => by rw [← h]; rfl, fun h => by rw [h]; rfl⟩
  by_cases hpos : 0 ≤ p.leader
  · rw [if_pos hpos, PartitionState.elect]
    by_cases halive : alive p.leader.toUInt32 = true
    · simp [hpos, halive]
    · rw [if_neg fun h => halive h.2]
      cases hfind : p.isr.find? alive with
      | some newLeader =>
        have hnew : alive newLeader = true := List.find?_some hfind
        refine iff_of_false (fun heq => halive ?_) halive
        rwa [← (hcast newLeader).mp heq]
      | none =>
        simp only [if_pos hleader]
        exact iff_of_false (fun heq => hleader heq.symm) halive
  · rw [if_neg hpos, PartitionState.elect, if_neg fun h => hpos h.1]
    cases hfind : p.isr.find? alive with
    | some newLeader => simp only [hcast, Option.some.injEq]
    | none =>
      simp only [if_pos hleader, reduceCtorEq, iff_false]
      exact fun heq => hleader heq.symm

/-- An election takes a partition away too early exactly if it does not spare its leader. -/
theorem Inv.elect_iff (h : s.Inv) {a : Action} (hstep : s.step a = some s')
    {alive : UInt32 → Bool} (helectorate : s.shared.electorate a = some alive) {topic : String}
    {k : ℕ} {p : PartitionState} (hp : s.mem.partition topic k = some p) (hleader : p.leader ≠ -1) :
    ((p.elect alive).2.leader ≠ p.leader →
      s.shared.config.sessionTimeout < s'.clock - s'.lastHeard p.leader.toUInt32) ↔
        s.Spares a alive p := by
  have hvotes := Shared.votes_of_electorate helectorate
  have hlast := h.lastHeard_step hstep p.leader.toUInt32
  have hstart := Shared.start_of_electorate helectorate
  have hclock : s'.clock = a.now := by rw [(step_eq hstep).2]
  rw [hclock, hlast, Ne, elect_leader_eq_iff hleader, Spares]
  simp only [hstart, ne_eq, not_true_eq_false, or_false]
  split
  · rename_i hpos
    constructor
    · intro hkept
      by_cases halive : s.mem.alive p.leader.toUInt32 = true
      · exact .inl halive
      · by_cases hsender : a.sender = some p.leader.toUInt32
        · exact .inr (.inl hsender)
        · have hdead : alive p.leader.toUInt32 ≠ true := fun hvote =>
            (hvotes.held _ hvote).elim halive hsender
          have hlate := hkept hdead
          rw [if_neg hsender, (h.led topic k p hp hpos).resolve_left halive] at hlate
          exact .inr (.inr hlate)
    · intro hspares hdead
      have hsender : a.sender ≠ some p.leader.toUInt32 := fun hsender =>
        hdead (hvotes.sender _ hsender)
      rw [if_neg hsender]
      by_cases halive : s.mem.alive p.leader.toUInt32 = true
      · obtain ⟨b, hb, hlate⟩ := hvotes.lost _ halive (Bool.eq_false_of_not_eq_true hdead)
        rwa [h.heartbeat _ b hb] at hlate
      · rw [(h.led topic k p hp hpos).resolve_left halive]
        exact (hspares.resolve_left halive).resolve_left hsender
  · by_cases hfirst : p.isr.find? alive = some p.leader.toUInt32
    · simp [hfirst]
    · by_cases hsender : a.sender = some p.leader.toUInt32
      · simp [hfirst, hsender]
      · simp [hfirst, hsender]

/-- In every run, restarts included, a step takes the partitions only from leaders that were silent
for the whole session timeout if and only if it is patient. -/
theorem leadersKept_iff {config : ControllerConfig} (h : Reach step Free (init config) s)
    {a : Action} (hstep : s.step a = some s') : LeadersKept s s' ↔ s.Patient a := by
  have hinv := inv_of_reach h
  have hmem : s'.mem = (s.shared.act a).mem := by rw [(step_eq hstep).2]; rfl
  rw [LeadersKept, hmem, Patient]
  cases s.shared.acts_act a with
  | elected alive helectorate halive hpartition =>
    replace hpartition : ∀ topic k, (s.shared.act a).mem.partition topic k =
      (s.mem.partition topic k).map fun p => (p.elect alive).2 := hpartition
    rw [helectorate, Shared.start_of_electorate helectorate]
    constructor
    · refine fun hkept => ⟨fun alive' halive' t ht p hpt hleader => ?_, fun _ hnow => by cases hnow⟩
      cases halive'
      obtain ⟨k, hk⟩ := List.mem_iff_getElem?.mp hpt
      have hp : s.mem.partition t.1 k = some p := by
        rw [State.partition, AList.mem_lookup_iff.mpr ht]
        exact hk
      refine (hinv.elect_iff hstep helectorate hp hleader).mp fun hne => ?_
      exact hkept t.1 k p _ hp (by rw [hpartition, hp, Option.map_some]) hleader hne
    · intro hpatient topic k p p' hp hp' hleader hne
      rw [hpartition, hp, Option.map_some, Option.some.injEq] at hp'
      subst hp'
      obtain ⟨parts, hparts, hk⟩ := Option.bind_eq_some_iff.mp hp
      have hspares := hpatient.1 alive rfl ⟨topic, parts⟩ (AList.mem_lookup_iff.mp hparts) p
        (List.mem_of_getElem? hk) hleader
      exact (hinv.elect_iff hstep helectorate hp hleader).mpr hspares hne
  | kept helectorate halive hstart hpartition =>
    rw [helectorate, hstart]
    refine iff_of_true (fun topic k p p' hp hp' hleader hne => ?_)
      ⟨fun _ halive => (by cases halive), fun _ hnow => by cases hnow⟩
    rcases hpartition topic k p' hp' with ⟨q, hq, heq⟩ | ⟨hnone, -⟩
    · cases hp.symm.trans hq
      exact absurd heq hne
    · cases hp.symm.trans hnone
  | restarted now ha hc' =>
    subst ha
    have hlast : ∀ id, s'.clock - s'.lastHeard id = 0 := fun id => by
      rw [hinv.lastHeard_step hstep, if_pos (.inr (by simp [Action.start])), (step_eq hstep).2]
      exact Nat.sub_self _
    simp only [hlast, Nat.not_lt_zero, imp_false, not_not, Action.start, Option.mem_def,
      Option.some.injEq, forall_eq']
    exact ⟨fun hkept => ⟨fun _ halive => (by cases halive), hkept⟩, fun hpatient => hpatient.2⟩

/-- Broker 1 leads a partition that it shares with broker 2, and is heard from last at 8. -/
def sharing : List Action :=
  [.request (.registerBroker 1 "a" "a") 0 true, .request (.registerBroker 2 "b" "b") 0 true,
    .request (.createTopic "t" 1 2) 0 true, .request (.brokerHeartbeat 1) 8 true]

/-- Broker 1 falls silent, and broker 2 takes over when the session timeout is over. -/
theorem leadersKept_swept : ∃ s s' : Timed, Reach step Free (init ⟨10⟩) s ∧
    s'.mem.partition "t" 0 = some ⟨2, 2, [1, 2], [2]⟩ ∧ LeadersKept s s' := by
  obtain ⟨s, hs, hnext, hspares⟩ := Reach.exists_of_runSteps step Free (init ⟨10⟩)
    (sharing ++ [.request (.brokerHeartbeat 2) 15 true])
    (fun s => (s.step (.sweepLiveness 19 true)).any (fun s' =>
        s'.mem.partition "t" 0 = some ⟨2, 2, [1, 2], [2]⟩) = true ∧
      ∀ alive ∈ s.shared.electorate (.sweepLiveness 19 true), ∀ t ∈ s.mem.topics.entries,
        ∀ p ∈ t.2, p.leader ≠ -1 → s.Spares (.sweepLiveness 19 true) alive p) (by decide)
  obtain ⟨s', hstep, hp⟩ := Option.any_eq_true _ _ |>.mp hnext
  exact ⟨s, s', hs, of_decide_eq_true hp, (leadersKept_iff hs hstep).mpr ⟨hspares, nofun⟩⟩

/-- After a restart at 9 broker 2 is the first to call and takes over from broker 1, which was
heard from within the session timeout. -/
theorem leader_replaced : ∃ s s' : Timed, ∃ a, Reach step Free (init ⟨10⟩) s ∧
    s.step a = some s' ∧ ¬ LeadersKept s s' := by
  obtain ⟨s, hs, hp, hnext⟩ := Reach.exists_of_runSteps step Free (init ⟨10⟩)
    (sharing ++ [.restart 9])
    (fun s => s.mem.partition "t" 0 = some ⟨1, 1, [1, 2], [1, 2]⟩ ∧
      (s.step (.request (.registerBroker 2 "b" "b") 10 true)).any (fun s' =>
        s'.mem.partition "t" 0 = some ⟨2, 2, [1, 2], [2]⟩ ∧
          s'.clock - s'.lastHeard 1 ≤ s.shared.config.sessionTimeout) = true) (by decide)
  obtain ⟨s', hstep, hp'⟩ := Option.any_eq_true _ _ |>.mp hnext
  obtain ⟨hp', hsoon⟩ := of_decide_eq_true hp'
  refine ⟨s, s', _, hs, hstep, fun hkept => ?_⟩
  exact (hkept "t" 0 _ _ hp hp' (by decide) (by decide)).not_ge hsoon

end Timed
end Replog.Controller
