import Replog.Controller.Elections

/-!
# Runs of the controller

A run takes requests, liveness sweeps and restarts in any order. It remembers the versions and
the metadata that were given out.
-/

namespace Replog.Controller
open Replog.Library

structure Run where
  shared : Shared
  /-- The versions of all responses, the latest first. -/
  reported : List ℕ
  /-- The metadata of all responses, the latest first. -/
  answers : List ClusterMeta

/-- Each input comes with the time and with whether the snapshot write, if any, succeeds. -/
inductive Action where
  | request (req : Request) (now : ℕ) (persisted : Bool)
  | sweepLiveness (now : ℕ) (persisted : Bool)
  | restart (now : ℕ)

/-- Every snapshot write of the step succeeds. -/
def Action.Persisted : Action → Prop
  | .request _ _ persisted => persisted = true
  | .sweepLiveness _ persisted => persisted = true
  | .restart _ => True

instance : DecidablePred Action.Persisted
  | .request _ _ persisted => inferInstanceAs (Decidable (persisted = true))
  | .sweepLiveness _ persisted => inferInstanceAs (Decidable (persisted = true))
  | .restart _ => inferInstanceAs (Decidable True)

namespace Run

def init (config : ControllerConfig) : Run where
  shared := { config, mem := .empty, disk := none }
  reported := []
  answers := []

def mem (r : Run) : State := r.shared.mem

def respond (r : Run) (res : Response × Shared) : Run where
  shared := res.2
  reported := res.1.version?.toList ++ r.reported
  answers := res.1.cluster?.toList ++ r.answers

def step (r : Run) : Action → Option Run
  | .request req now persisted => some (r.respond (r.shared.handle req now persisted))
  | .sweepLiveness now persisted =>
    some { r with shared := r.shared.sweepLiveness now persisted }
  | .restart now => some { r with shared := r.shared.restart now }

def AllPersisted (_ : Run) (a : Action) : Prop := a.Persisted

instance (r : Run) (a : Action) : Decidable (AllPersisted r a) :=
  inferInstanceAs (Decidable a.Persisted)

end Run

/-- What every mutation is: old partitions evolve, the version is left to the caller, and without
a change nothing can be told from before. -/
structure State.Mutates (s : State) (m : Bool × State) : Prop where
  evolves : s.Evolves m.2
  version : m.2.version = s.version
  quiet : m.1 = false → m.2.Agrees s

namespace State

theorem mutates_registerBroker (id : UInt32) (addr peerAddr : String) (now : ℕ) (s : State) :
    s.Mutates (registerBroker id addr peerAddr now s) :=
  ⟨evolves_registerBroker id addr peerAddr now s, rfl, agrees_registerBroker⟩

theorem mutates_brokerHeartbeat (id : UInt32) (now : ℕ) (s : State) :
    s.Mutates (brokerHeartbeat id now s).2 := by
  refine ⟨evolves_brokerHeartbeat id now s, ?_, agrees_brokerHeartbeat⟩
  rw [brokerHeartbeat]
  split
  · rfl
  · split <;> rfl

theorem mutates_createTopic (topic : String) (partitions replicationFactor : ℕ) (s : State) :
    s.Mutates (createTopic topic partitions replicationFactor s).2 := by
  refine ⟨evolves_createTopic topic partitions replicationFactor s, ?_, agrees_createTopic⟩
  rw [createTopic]
  split_ifs <;> rfl

theorem mutates_alterIsr (topic : String) (partition leaderEpoch : ℕ) (isr : List UInt32)
    (s : State) : s.Mutates (alterIsr topic partition leaderEpoch isr s).2 := by
  refine ⟨evolves_alterIsr topic partition leaderEpoch isr s, ?_, agrees_alterIsr⟩
  rw [alterIsr]
  split
  · rfl
  · split <;> rfl

theorem mutates_sweepLiveness (cfg : ControllerConfig) (now : ℕ) (s : State) :
    s.Mutates (sweepLiveness cfg now s) := by
  refine ⟨evolves_sweepLiveness cfg now s, ?_, agrees_sweepLiveness⟩
  rw [sweepLiveness]
  split <;> rfl

end State

namespace Run

inductive Steps (r r' : Run) (a : Action) : Prop where
  | mutated (m : Bool × State) (persisted : Bool) (hm : r.mem.Mutates m)
      (hshared : r'.shared = r.shared.mutate persisted m)
      (hpersisted : a.Persisted → persisted = true)
      (hreported : r'.reported = r.reported ∨ r'.reported = r'.mem.version :: r.reported)
      (hanswers : r'.answers = r.answers)
  | described (hshared : r'.shared = r.shared)
      (hreported : r'.reported = r.mem.version :: r.reported)
      (hanswers : r'.answers = r.mem.clusterMeta :: r.answers)
  | misdirected (now : ℕ) (persisted : Bool) (ha : a = .request .other now persisted)
      (hshared : r'.shared = r.shared) (hreported : r'.reported = 0 :: r.reported)
      (hanswers : r'.answers = .default :: r.answers)
  | restarted (now : ℕ) (ha : a = .restart now) (hshared : r'.shared = r.shared.restart now)
      (hreported : r'.reported = r.reported) (hanswers : r'.answers = r.answers)

theorem steps_of_step {r r' : Run} {a : Action} (h : step r a = some r') : Steps r r' a := by
  cases a with
  | request req now persisted =>
    cases h
    cases req with
    | registerBroker id addr peerAddr =>
      exact .mutated _ persisted (State.mutates_registerBroker id addr peerAddr now _) rfl
        (fun h => h) (.inr rfl) rfl
    | brokerHeartbeat id =>
      exact .mutated _ persisted (State.mutates_brokerHeartbeat id now _) rfl (fun h => h)
        (.inr rfl) rfl
    | controllerMetadata => exact .described rfl rfl rfl
    | createTopic topic partitions replicationFactor =>
      exact .mutated _ persisted (State.mutates_createTopic topic partitions replicationFactor _)
        rfl id (.inl rfl) rfl
    | alterIsr topic partition leaderEpoch isr =>
      exact .mutated _ persisted (State.mutates_alterIsr topic partition leaderEpoch isr _) rfl id
        (.inr rfl) rfl
    | other => exact .misdirected now persisted rfl rfl rfl rfl
  | sweepLiveness now persisted =>
    cases h
    exact .mutated _ persisted (State.mutates_sweepLiveness _ now _) rfl id (.inl rfl) rfl
  | restart now =>
    cases h
    exact .restarted now rfl rfl rfl rfl

end Run

namespace Shared

theorem partition_mutate (c : Shared) (persisted : Bool) (m : Bool × State) (topic : String)
    (k : ℕ) : (c.mutate persisted m).mem.partition topic k = m.2.partition topic k := by
  rw [mutate]
  split <;> rfl

theorem alive_mutate (c : Shared) (persisted : Bool) (m : Bool × State) :
    (c.mutate persisted m).mem.alive = m.2.alive := by
  rw [mutate]
  split <;> rfl

/-- Without a change the state file is left alone; a change gets a new version and is written or
lost as a whole. -/
theorem mutate_cases {c : Shared} {m : Bool × State} (persisted : Bool)
    (hversion : m.2.version = c.mem.version) :
    (m.1 = false ∧ (c.mutate persisted m).mem = m.2 ∧ (c.mutate persisted m).disk = c.disk) ∨
      ((c.mutate persisted m).mem.version = c.mem.version + 1 ∧
        ((c.mutate persisted m).disk = c.disk ∨
          (c.mutate persisted m).disk = some (c.mutate persisted m).mem.snapshot)) := by
  rw [mutate]
  split
  · refine .inr ⟨congrArg (· + 1) hversion, ?_⟩
    cases persisted
    · exact .inl rfl
    · exact .inr rfl
  · rename_i hchanged
    exact .inl ⟨by simpa using hchanged, rfl, rfl⟩

private theorem evolves_mutate {c : Shared} {m : Bool × State} (persisted : Bool)
    (h : c.mem.Evolves m.2) : c.mem.Evolves (c.mutate persisted m).mem where
  old topic k p hp := by
    rw [partition_mutate, alive_mutate]
    exact h.old topic k p hp
  new topic k p' hp' := by
    rw [partition_mutate] at hp'
    exact h.new topic k p' hp'

end Shared

theorem State.Agrees.partition_eq {s s' : State} (h : s.Agrees s') (topic : String) (k : ℕ) :
    s.partition topic k = s'.partition topic k := by
  rw [State.partition, h.topics, State.partition]

namespace Run

/-- The state file agrees with the partitions in memory. -/
def Synced (r : Run) : Prop :=
  ∀ now topic k, (loadSnapshot now r.shared.disk).partition topic k = r.mem.partition topic k

theorem synced_of_step {r r' : Run} {a : Action} (hr : r.Synced) (ha : a.Persisted)
    (hstep : step r a = some r') : r'.Synced := by
  cases steps_of_step hstep with
  | mutated m persisted hm hshared hpersisted hreported hanswers =>
    intro now topic k
    rw [hpersisted ha] at hshared
    rw [mem, hshared, Shared.partition_mutate, Shared.mutate]
    split
    · exact (State.agrees_loadSnapshot now _).partition_eq topic k
    · rename_i hchanged
      rw [(hm.quiet (by simpa using hchanged)).partition_eq]
      exact hr now topic k
  | described hshared hreported hanswers =>
    rw [Synced, mem, hshared]
    exact hr
  | misdirected now persisted ha hshared hreported hanswers =>
    rw [Synced, mem, hshared]
    exact hr
  | restarted now ha hshared hreported hanswers =>
    intro now' topic k
    rw [mem, hshared]
    exact (hr now' topic k).trans (hr now topic k).symm

theorem evolves_of_step {r r' : Run} {a : Action} (hr : r.Synced)
    (hstep : step r a = some r') : r.mem.Evolves r'.mem := by
  cases steps_of_step hstep with
  | mutated m persisted hm hshared hpersisted hreported hanswers =>
    rw [mem, mem, hshared]
    exact Shared.evolves_mutate persisted hm.evolves
  | described hshared hreported hanswers =>
    rw [mem, mem, hshared]
    exact .of_partition_eq fun _ _ => rfl
  | misdirected now persisted ha hshared hreported hanswers =>
    rw [mem, mem, hshared]
    exact .of_partition_eq fun _ _ => rfl
  | restarted now ha hshared hreported hanswers =>
    rw [mem, mem, hshared]
    exact .of_partition_eq (hr now)

/-- Every later tuple of the partition has at least its epoch, and the same leader or none as long
as the epoch is the same. -/
def Succeeds (p p' : PartitionState) : Prop :=
  p.leaderEpoch ≤ p'.leaderEpoch ∧
    (p.leaderEpoch = p'.leaderEpoch → p'.leader ≠ -1 → p'.leader = p.leader)

theorem Succeeds.of_evolves {alive : UInt32 → Bool} {p q q' : PartitionState} (h : Succeeds p q)
    (hev : q.Evolves alive q') : Succeeds p q' := by
  have hfollows := hev.follows
  refine ⟨h.1.trans hfollows.epoch_le, fun hepoch hleader => ?_⟩
  have hq := h.1
  have hq' := hfollows.epoch_le
  have hsame : q'.leader = q.leader := by
    by_contra hne
    have hlt := hfollows.epoch_lt hne hleader
    omega
  rw [hsame]
  exact h.2 (by omega) (hsame ▸ hleader)

private theorem succeeds_of_reach {r r' : Run} (hr : r.Synced) (h : Reach step AllPersisted r r') :
    r'.Synced ∧ ∀ topic k p, r.mem.partition topic k = some p →
      ∃ p', r'.mem.partition topic k = some p' ∧ Succeeds p p' := by
  refine h.invariant (P := fun r' => r'.Synced ∧ ∀ topic k p, r.mem.partition topic k = some p →
    ∃ p', r'.mem.partition topic k = some p' ∧ Succeeds p p') ?_ ?_
  · exact ⟨hr, fun topic k p hp => ⟨p, hp, le_rfl, fun _ _ => rfl⟩⟩
  · intro s a s' ⟨hsynced, hs⟩ ha hstep
    refine ⟨synced_of_step hsynced ha hstep, fun topic k p hp => ?_⟩
    obtain ⟨q, hq, hsucc⟩ := hs topic k p hp
    obtain ⟨q', hq', hev⟩ := (evolves_of_step hsynced hstep).old topic k q hq
    exact ⟨q', hq', hsucc.of_evolves hev⟩

private theorem sound_of_reach {config : ControllerConfig} {r : Run}
    (h : Reach step AllPersisted (init config) r) : r.Synced ∧ r.mem.Sound := by
  refine h.invariant (P := fun r => r.Synced ∧ r.mem.Sound) ⟨fun _ _ _ => rfl, nofun⟩ ?_
  intro s a s' ⟨hsynced, hs⟩ ha hstep
  exact ⟨synced_of_step hsynced ha hstep, (evolves_of_step hsynced hstep).sound hs⟩

/-- As long as every snapshot write succeeds, every partition keeps its shape, each step raises the
epoch with every new leader and elects it alive from the ISR, and no epoch of a partition ever has
two leaders. -/
theorem partitions_sound {config : ControllerConfig} {r : Run}
    (h : Reach step AllPersisted (init config) r) :
    r.mem.Sound ∧
    (∀ a r', a.Persisted → step r a = some r' → ∀ topic k p, r.mem.partition topic k = some p →
      ∃ p', r'.mem.partition topic k = some p' ∧ p.Follows r'.mem.alive p') ∧
    (∀ r', Reach step AllPersisted r r' → ∀ topic k p p', r.mem.partition topic k = some p →
      r'.mem.partition topic k = some p' → p.leaderEpoch = p'.leaderEpoch →
      p.leader ≠ -1 → p'.leader ≠ -1 → p.leader = p'.leader) := by
  obtain ⟨hsynced, hsound⟩ := sound_of_reach h
  refine ⟨hsound, ?_, ?_⟩
  · intro a r' ha hstep topic k p hp
    obtain ⟨p', hp', hev⟩ := (evolves_of_step hsynced hstep).old topic k p hp
    exact ⟨p', hp', hev.follows⟩
  · intro r' hreach topic k p p' hp hp' hepoch _ hleader'
    obtain ⟨q, hq, hsucc⟩ := (succeeds_of_reach hsynced hreach).2 topic k p hp
    rw [hp', Option.some.injEq] at hq
    subst hq
    exact (hsucc.2 hepoch hleader').symm

/-- Broker 1 dies, broker 2 takes over in epoch 2, and both come back around a restart. -/
def failover : List Action :=
  [.request (.registerBroker 1 "a" "a") 0 true, .request (.registerBroker 2 "b" "b") 0 true,
    .request (.createTopic "t" 1 2) 0 true, .request (.brokerHeartbeat 2) 10 true,
    .sweepLiveness 11 true, .request (.brokerHeartbeat 1) 12 true,
    .request (.alterIsr "t" 0 2 [2, 1]) 13 true, .restart 20, .request (.brokerHeartbeat 1) 21 true]

theorem partitions_sound_failover :
    ∃ r, r.mem.partition "t" 0 = some ⟨1, 3, [1, 2], [1]⟩ ∧ r.mem.Sound ∧
      ∀ r', Reach step AllPersisted r r' → ∀ p', r'.mem.partition "t" 0 = some p' →
        p'.leaderEpoch = 3 → p'.leader ≠ -1 → p'.leader = 1 := by
  obtain ⟨r, hreach, hp⟩ := Reach.exists_of_runSteps step AllPersisted (init ⟨10⟩) failover
    (fun r => r.mem.partition "t" 0 = some ⟨1, 3, [1, 2], [1]⟩) (by decide)
  refine ⟨r, hp, (partitions_sound hreach).1, fun r' hr' p' hp' hepoch hleader => ?_⟩
  exact ((partitions_sound hreach).2.2 r' hr' "t" 0 _ p' hp hp' hepoch.symm (by decide)
    hleader).symm

end Run
end Replog.Controller
