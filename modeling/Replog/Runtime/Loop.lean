import Replog.Controller.Timing
import Replog.Replication.ReplState

/-!
# The runtime task of a clustered broker

One task registers with the controller, sends it heartbeats and applies its metadata; each replica
that follows has a fetcher, which is started when metadata is applied. A fetcher that goes may ask
for another round of the task by a ping. A call of the controller is made, is served and is
answered in steps of their own, and so is every wait of a fetcher, so that anything may happen in
between.
-/

namespace Replog.Runtime
open Replog.Library
open Replog.Controller (ClusterMeta PartitionMeta Request Response Shared)
open Replog.Proto (ErrorCode)
open Replog.Replication (BrokerId ReplState)

structure Config where
  brokerId : UInt32
  addr : String
  peerAddr : String

abbrev Key := String × ℕ

instance lawfulBEqKey : LawfulBEq Key := Prod.instLawfulBEq

/-! ## Fetchers -/

/-- Where `fetcher_loop` stands: before a check of its claim on the replica, or at a wait. -/
inductive Phase where
  | connect
  | connecting
  | status
  | epochCheck
  | reconcile
  | truncating
  | loop
  | fetching
  | received
  | appending
  | exiting
  deriving DecidableEq

/-- What a fetcher that stands at a wait gets, and what decides where it goes on after a check. -/
inductive Outcome where
  | ok
  /-- There is something to do after the check: a suffix to truncate, records to append. -/
  | work
  /-- The partition's thread, or the connection attempt, failed. -/
  | failed
  | refused
  | unexpected
  | closed
  deriving DecidableEq

/-- Where the fetcher goes, and whether it sends a ping before. -/
def Phase.next (current : Bool) : Phase → Outcome → Option (Phase × Bool)
  | .connect, .ok => some (if current then .connecting else .exiting, false)
  | .connecting, .ok => some (.status, false)
  | .connecting, .failed => some (.connect, false)
  | .status, .ok => some (.epochCheck, false)
  | .status, .failed => some (.exiting, false)
  | .epochCheck, .ok => some (.reconcile, false)
  | .epochCheck, .refused => some (.exiting, true)
  | .epochCheck, .unexpected => some (.exiting, true)
  | .epochCheck, .closed => some (.exiting, true)
  | .reconcile, .ok => some (if current then .loop else .exiting, false)
  | .reconcile, .work => some (if current then .truncating else .exiting, false)
  | .truncating, .ok => some (.loop, false)
  | .truncating, .failed => some (.exiting, false)
  | .loop, .ok => some (if current then .fetching else .exiting, false)
  | .fetching, .ok => some (.received, false)
  | .fetching, .refused => some (.exiting, true)
  | .fetching, .unexpected => some (.exiting, false)
  | .fetching, .closed => some (.exiting, true)
  | .received, .ok => some (if current then .loop else .exiting, false)
  | .received, .work => some (if current then .appending else .exiting, false)
  | .appending, .ok => some (.loop, false)
  | .appending, .failed => some (.exiting, false)
  | _, _ => none

/-- A fetcher's task; it is kept under the replica and the generation. -/
structure Fetcher where
  leaderAddr : String
  epoch : ℕ
  phase : Phase := .connect
  deriving DecidableEq

/-! ## The state -/

structure Replica where
  st : ReplState
  /-- The leader in the metadata that was applied last. The code does not keep it. -/
  leader : Option BrokerId

inductive Call where
  | register
  | heartbeat
  | metadata
  deriving DecidableEq

/-- Where the runtime task stands in its loop; a round is forced if a ping started it. -/
inductive Round where
  | idle
  | connect (forced : Bool)
  | call (forced : Bool) (c : Call)
  | answered (forced : Bool) (c : Call) (resp : Response)
  | applying (forced : Bool) (cluster : ClusterMeta) (todo : List (Key × PartitionMeta))
  | maintain

structure Broker where
  controller : Shared
  controllerConn : Bool
  registered : Bool
  localVersion : ℕ
  round : Round
  pings : ℕ
  replicas : Assoc Key Replica
  fetchers : Key → ℕ → Option Fetcher

def Call.request (config : Config) : Call → Request
  | .register => .registerBroker config.brokerId config.addr config.peerAddr
  | .heartbeat => .brokerHeartbeat config.brokerId
  | .metadata => .controllerMetadata

/-- A response that the round goes on with. -/
def Call.accepts : Call → Response → Bool
  | .register, .registerBroker error _ => error = .none
  | .heartbeat, .brokerHeartbeat error _ => error = .none
  | .metadata, .controllerMetadata error _ => error = .none
  | _, _ => false

/-- The entry of a partition as the replica of a broker is given it. An id from 2 ^ 31 on is
negative as an `i32`, and a leader to nobody but itself. -/
def partitionMeta (self : UInt32) (cluster : ClusterMeta) (p : PartitionMeta) :
    Replication.PartitionMeta where
  version := cluster.version
  leader := if 0 ≤ p.leader ∨ p.leader = self.toInt32 then some p.leader.toUInt32.toNat else none
  leaderEpoch := p.leaderEpoch
  replicas := p.replicas.map UInt32.toNat
  isr := p.isr.map UInt32.toNat

/-- The partitions that `apply_metadata` does not skip. -/
def hosted (self : UInt32) (cluster : ClusterMeta) : List (Key × PartitionMeta) :=
  cluster.topics.flatMap fun t =>
    (t.2.filter fun p => self ∈ p.replicas).map fun p => ((t.1, p.partition), p)

def leaderAddr (cluster : ClusterMeta) (leader : BrokerId) : Option String :=
  ((cluster.peers ++ cluster.brokers).find? fun a => a.1.toNat = leader).map Prod.snd

/-! ## Steps -/

inductive Action where
  | tick
  | refresh
  | connected
  | connectFailed
  | served (now : ℕ) (persisted : Bool)
  | received
  | callFailed
  /-- The next partition of the metadata, or its end; `opened` if a new replica can be opened. -/
  | apply (now : ℕ) (opened : Bool)
  | maintained
  | controller (a : Controller.Action)
  | pingRefresh
  /-- What else happens to a replica leaves its role and its fetcher alone. -/
  | replica (key : Key) (st : ReplState)
  | fetcher (key : Key) (generation : ℕ) (o : Outcome)
  /-- A fetcher that left its loop marks itself dead. -/
  | exit (key : Key) (generation : ℕ)

namespace Broker

def init (config : Controller.ControllerConfig) : Broker where
  controller := { config, mem := .empty, disk := none }
  controllerConn := false
  registered := false
  localVersion := 0
  round := .idle
  pings := 0
  replicas := ∅
  fetchers _ _ := none

def setFetcher (b : Broker) (key : Key) (generation : ℕ) (f : Option Fetcher) : Broker :=
  { b with fetchers := fun key' generation' =>
      if key' = key ∧ generation' = generation then f else b.fetchers key' generation' }

section Rounds

variable (self : UInt32) (b : Broker)

def proceed (forced : Bool) : Broker :=
  { b with round := .call forced (if b.registered then .heartbeat else .register) }

def begin (forced : Bool) : Broker :=
  if b.controllerConn then b.proceed forced else { b with round := .connect forced }

def disconnect : Broker := { b with controllerConn := false, round := .idle }

def receive (forced : Bool) : Call → Response → Broker
  | .register, .registerBroker .none _ =>
    { b with registered := true, round := .call forced .heartbeat }
  | .heartbeat, .brokerHeartbeat .none remoteVersion =>
    if remoteVersion ≠ b.localVersion ∨ forced then { b with round := .call forced .metadata }
    else { b with round := .maintain }
  | .heartbeat, .brokerHeartbeat _ _ => { b with registered := false, round := .idle }
  | .metadata, .controllerMetadata .none cluster =>
    { b with
      round := .applying forced cluster (hosted self cluster)
      -- A replica that the metadata does not list has no leader in it.
      replicas := b.replicas.mapVal fun key r =>
        if key ∈ (hosted self cluster).map Prod.fst then r else { r with leader := none } }
  | _, _ => b.disconnect

/-- The replica takes the role that the metadata gives it, and is given a fetcher for it. -/
def applyReplica (now : ℕ) (cluster : ClusterMeta) (key : Key) (p : PartitionMeta) (r : Replica) :
    Broker :=
  let p := partitionMeta self cluster p
  let (transition, _, st) := r.st.applyMetadata self.toNat now p
  let b := { b with replicas := b.replicas.insert key ⟨st, p.leader⟩ }
  match transition with
  | .following (some leader) =>
    match leaderAddr cluster leader with
    | some leaderAddr =>
      b.setFetcher key st.fetcherGeneration (some { leaderAddr, epoch := p.leaderEpoch })
    | none => b
  | _ => b

/-- The loop body of `apply_metadata`, as far as roles and fetchers go. -/
def applyPartition (now : ℕ) (opened : Bool) (cluster : ClusterMeta) (key : Key)
    (p : PartitionMeta) : Broker :=
  match b.replicas.lookup key with
  | some r => b.applyReplica self now cluster key p r
  | none => if opened then b.applyReplica self now cluster key p ⟨{}, none⟩ else b

end Rounds

def isCurrent (b : Broker) (key : Key) (generation : ℕ) : Bool :=
  (b.replicas.lookup key).any fun r =>
    !r.st.isLeader && r.st.fetcherGeneration = generation

def step (config : Config) (b : Broker) : Action → Option Broker
  | .tick => match b.round with
    | .idle => some (b.begin false)
    | _ => none
  | .refresh => match b.round with
    | .idle => if b.pings = 0 then none else some ({ b with pings := b.pings - 1 }.begin true)
    | _ => none
  | .connected => match b.round with
    | .connect forced =>
      some ({ b with controllerConn := true, registered := false }.proceed forced)
    | _ => none
  | .connectFailed => match b.round with
    | .connect _ => some { b with round := .idle }
    | _ => none
  | .served now persisted => match b.round with
    | .call forced c =>
      let (resp, controller) := b.controller.handle (c.request config) now persisted
      some { b with controller, round := .answered forced c resp }
    | _ => none
  | .received => match b.round with
    | .answered forced c resp => some (b.receive config.brokerId forced c resp)
    | _ => none
  | .callFailed => match b.round with
    | .call _ _ => some b.disconnect
    | .answered _ _ _ => some b.disconnect
    | _ => none
  | .apply now opened => match b.round with
    | .applying forced cluster ((key, p) :: todo) =>
      some { b.applyPartition config.brokerId now opened cluster key p with
        round := .applying forced cluster todo }
    | .applying _ cluster [] =>
      some { b with localVersion := cluster.version, round := .maintain }
    | _ => none
  | .maintained => match b.round with
    | .maintain => some { b with round := .idle }
    | _ => none
  | .controller a => some { b with controller := b.controller.act a }
  | .pingRefresh => some { b with pings := b.pings + 1 }
  | .replica key st => match b.replicas.lookup key with
    | some r =>
      if st.authority = r.st.authority ∧ st.fetcherAlive = r.st.fetcherAlive then
        some { b with replicas := b.replicas.insert key { r with st } }
      else none
    | none => none
  | .fetcher key generation o => match b.fetchers key generation with
    | some f =>
      (f.phase.next (b.isCurrent key generation) o).map fun (phase, ping) =>
        { b.setFetcher key generation (some { f with phase }) with
          pings := if ping then b.pings + 1 else b.pings }
    | none => none
  | .exit key generation => match b.fetchers key generation with
    | some f =>
      if f.phase = .exiting then
        some { b.setFetcher key generation none with
          replicas := b.replicas.mapVal fun key' r =>
            if key' = key then { r with st := r.st.fetcherExit generation } else r }
      else none
    | none => none

end Broker
end Replog.Runtime
