import Replog.Library.AssocList
import Replog.Library.Transition
import Replog.Proto.Message

/-!
# The controller's metadata

The brokers and the (leader, epoch, replicas, ISR) tuple of every partition, the mutations that
requests and the liveness sweep make, and the snapshot that a restart comes back from.
-/

namespace Replog.Controller
open Replog.Library
open Replog.Proto (ErrorCode)

structure ControllerConfig where
  /-- In milliseconds. -/
  sessionTimeout : ℕ

structure BrokerState where
  addr : String
  peerAddr : String
  alive : Bool
  lastHeartbeat : ℕ

/-- The leader is a broker id cast to `i32`, or `-1`. -/
structure PartitionState where
  leader : Int32
  leaderEpoch : ℕ
  replicas : List UInt32
  isr : List UInt32
  deriving DecidableEq

structure State where
  version : ℕ
  brokers : Assoc UInt32 BrokerState
  topics : Assoc String (List PartitionState)

namespace State

def empty : State := { version := 0, brokers := ∅, topics := ∅ }

def alive (s : State) (id : UInt32) : Bool := (s.brokers.lookup id).elim false BrokerState.alive

/-- The ids of the alive brokers, ascending. -/
def aliveIds (s : State) : List UInt32 := (s.brokers.sorted.filter (·.2.alive)).map Prod.fst

end State

/-! ## Elections -/

/-- Elects from the ISR only (minus dead members) if the leader is dead or missing. The flag says
whether anything changed. -/
def PartitionState.elect (alive : UInt32 → Bool) (p : PartitionState) : Bool × PartitionState :=
  if 0 ≤ p.leader ∧ alive p.leader.toUInt32 then (false, p)
  else
    match p.isr.find? alive with
    | some newLeader =>
      (true, { p with leader := newLeader.toInt32, leaderEpoch := p.leaderEpoch + 1,
                      isr := p.isr.filter alive })
    | none => if p.leader ≠ -1 then (true, { p with leader := -1 }) else (false, p)

def electWhereNeeded (s : State) : Bool × State :=
  (s.topics.entries.any fun t => t.2.any fun p => (p.elect s.alive).1,
    { s with topics := s.topics.mapVal fun _ parts => parts.map fun p => (p.elect s.alive).2 })

/-! ## Mutations: whether something changed, and the state they leave -/

def registerBroker (brokerId : UInt32) (addr peerAddr : String) (now : ℕ) (s : State) :
    Bool × State :=
  let changed :=
    match s.brokers.lookup brokerId with
    | some b => !b.alive || b.addr ≠ addr || b.peerAddr ≠ peerAddr
    | none => true
  let r := electWhereNeeded { s with
    brokers := s.brokers.insert brokerId { addr, peerAddr, alive := true, lastHeartbeat := now } }
  (changed || r.1, r.2)

/-- Only a broker that comes back from the dead elects. -/
def brokerHeartbeat (brokerId : UInt32) (now : ℕ) (s : State) : ErrorCode × Bool × State :=
  match s.brokers.lookup brokerId with
  | none => (.unknownMember, false, s)
  | some b =>
    let s' := { s with
      brokers := s.brokers.insert brokerId { b with alive := true, lastHeartbeat := now } }
    (.none, if !b.alive then electWhereNeeded s' else (false, s'))

/-- The replicas of partition `p`: `rf` brokers in a row from the `p`th on, around the end. -/
def replicasOf (alive : List UInt32) (rf p : ℕ) : List UInt32 :=
  (List.range rf).map fun i => alive.getD ((p + i) % alive.length) 0

def newPartition (alive : List UInt32) (rf p : ℕ) : PartitionState :=
  let replicas := replicasOf alive rf p
  { leader := (replicas.headD 0).toInt32, leaderEpoch := 1, replicas, isr := replicas }

def createTopic (topic : String) (partitions replicationFactor : ℕ) (s : State) :
    ErrorCode × Bool × State :=
  let rf := max replicationFactor 1
  if topic ∈ s.topics then (.topicExists, false, s)
  else if partitions = 0 ∨ 1024 < partitions ∨ s.aliveIds.length < rf then (.malformed, false, s)
  else
    (.none, true, { s with
      topics := s.topics.insert topic ((List.range partitions).map (newPartition s.aliveIds rf)) })

/-- The ISR a leader proposes has to name the epoch, hold the leader and lie in the replicas. -/
def PartitionState.alterIsr (leaderEpoch : ℕ) (isr : List UInt32) (p : PartitionState) :
    ErrorCode × Bool × PartitionState :=
  if leaderEpoch ≠ p.leaderEpoch then (.fencedEpoch, false, p)
  else if isr = [] ∨ p.leader.toUInt32 ∉ isr ∨ ¬ isr ⊆ p.replicas then (.malformed, false, p)
  else if p.isr = isr then (.none, false, p)
  else (.none, true, { p with isr })

def alterIsr (topic : String) (partition leaderEpoch : ℕ) (isr : List UInt32) (s : State) :
    ErrorCode × Bool × State :=
  match s.topics.lookup topic with
  | none => (.unknownTopicOrPartition, false, s)
  | some parts =>
    match parts[partition]? with
    | none => (.unknownTopicOrPartition, false, s)
    | some p =>
      let r := p.alterIsr leaderEpoch isr
      (r.1, r.2.1, { s with topics := s.topics.insert topic (parts.set partition r.2.2) })

/-- Declares the brokers dead whose last heartbeat is too long ago. -/
def sweepLiveness (cfg : ControllerConfig) (now : ℕ) (s : State) : Bool × State :=
  let expired := fun b : BrokerState =>
    b.alive && decide (cfg.sessionTimeout < now - b.lastHeartbeat)
  let s' := { s with
    brokers := s.brokers.mapVal fun _ b => if expired b then { b with alive := false } else b }
  if s.brokers.entries.any fun b => expired b.2 then (true, (electWhereNeeded s').2)
  else (false, s')

/-! ## Snapshots -/

/-- What is persisted, in the order it is written. -/
structure Snapshot where
  version : ℕ
  brokers : List (UInt32 × String × String)
  topics : List (String × List PartitionState)

def State.snapshot (s : State) : Snapshot where
  version := s.version
  brokers := s.brokers.sorted.map fun b => (b.1, b.2.addr, b.2.peerAddr)
  topics := s.topics.sorted

/-- Nobody is trusted as alive until they heartbeat again. -/
def restoredBroker (now : ℕ) (addr peerAddr : String) : BrokerState :=
  { addr, peerAddr, alive := false, lastHeartbeat := now }

/-- No file is the empty state. -/
def loadSnapshot (now : ℕ) : Option Snapshot → State
  | none => .empty
  | some snap => {
      version := snap.version
      brokers := Assoc.ofList (snap.brokers.map fun b => (b.1, restoredBroker now b.2.1 b.2.2))
      topics := Assoc.ofList snap.topics }

/-! ## The metadata brokers and clients get -/

structure PartitionMeta where
  partition : ℕ
  leader : Int32
  leaderEpoch : ℕ
  replicas : List UInt32
  isr : List UInt32
  deriving DecidableEq

structure ClusterMeta where
  version : ℕ
  brokers : List (UInt32 × String)
  peers : List (UInt32 × String)
  topics : List (String × List PartitionMeta)
  deriving DecidableEq

def ClusterMeta.default : ClusterMeta := { version := 0, brokers := [], peers := [], topics := [] }

def partitionMetas (parts : List PartitionState) : List PartitionMeta :=
  parts.mapIdx fun i p =>
    { partition := i, leader := p.leader, leaderEpoch := p.leaderEpoch, replicas := p.replicas,
      isr := p.isr }

def State.clusterMeta (s : State) : ClusterMeta where
  version := s.version
  brokers := s.brokers.sorted.map fun b => (b.1, b.2.addr)
  peers := s.brokers.sorted.map fun b => (b.1, b.2.peerAddr)
  topics := s.topics.sorted.map fun t => (t.1, partitionMetas t.2)

/-! ## Requests -/

/-- The requests the controller serves; `other` is any data-plane or group request. -/
inductive Request where
  | registerBroker (brokerId : UInt32) (addr peerAddr : String)
  | brokerHeartbeat (brokerId : UInt32)
  | controllerMetadata
  | createTopic (topic : String) (partitions replicationFactor : ℕ)
  | alterIsr (topic : String) (partition leaderEpoch : ℕ) (isr : List UInt32)
  | other

inductive Response where
  | registerBroker (error : ErrorCode) (metadataVersion : ℕ)
  | brokerHeartbeat (error : ErrorCode) (metadataVersion : ℕ)
  | controllerMetadata (error : ErrorCode) (cluster : ClusterMeta)
  | createTopic (error : ErrorCode)
  | alterIsr (error : ErrorCode) (metadataVersion : ℕ)

/-- The metadata version a response carries. -/
def Response.version? : Response → Option ℕ
  | .registerBroker _ version => some version
  | .brokerHeartbeat _ version => some version
  | .controllerMetadata _ cluster => some cluster.version
  | .createTopic _ => none
  | .alterIsr _ version => some version

def Response.cluster? : Response → Option ClusterMeta
  | .controllerMetadata _ cluster => some cluster
  | _ => none

/-- The controller with its state file. -/
structure Shared where
  config : ControllerConfig
  mem : State
  disk : Option Snapshot

namespace Shared

/-- Bumps the version of a mutation that reports a change and persists the snapshot; a write that
fails leaves the file as it was and nothing else notices. -/
def mutate (c : Shared) (persisted : Bool) (r : Bool × State) : Shared :=
  if r.1 then
    let s := { r.2 with version := r.2.version + 1 }
    { c with mem := s, disk := if persisted then some s.snapshot else c.disk }
  else { c with mem := r.2 }

def handle (c : Shared) (req : Request) (now : ℕ) (persisted : Bool) : Response × Shared :=
  match req with
  | .registerBroker brokerId addr peerAddr =>
    let c' := c.mutate persisted (Controller.registerBroker brokerId addr peerAddr now c.mem)
    (.registerBroker .none c'.mem.version, c')
  | .brokerHeartbeat brokerId =>
    let (error, r) := Controller.brokerHeartbeat brokerId now c.mem
    let c' := c.mutate persisted r
    (.brokerHeartbeat error c'.mem.version, c')
  | .controllerMetadata => (.controllerMetadata .none c.mem.clusterMeta, c)
  | .createTopic topic partitions replicationFactor =>
    let (error, r) := Controller.createTopic topic partitions replicationFactor c.mem
    (.createTopic error, c.mutate persisted r)
  | .alterIsr topic partition leaderEpoch isr =>
    let (error, r) := Controller.alterIsr topic partition leaderEpoch isr c.mem
    let c' := c.mutate persisted r
    (.alterIsr error c'.mem.version, c')
  | .other => (.controllerMetadata .malformed .default, c)

def sweepLiveness (c : Shared) (now : ℕ) (persisted : Bool) : Shared :=
  c.mutate persisted (Controller.sweepLiveness c.config now c.mem)

def restart (c : Shared) (now : ℕ) : Shared := { c with mem := loadSnapshot now c.disk }

end Shared
end Replog.Controller
