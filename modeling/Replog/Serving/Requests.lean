import Replog.Controller.Timing
import Replog.Groups.Coverage
import Replog.Partition.Thread
import Replog.Proto.Frames
import Replog.Storage.LogRefinement

/-!
# What a server answers

The responses of a broker and of the controller, with all that makes them long: the records of a
log, the metadata of the cluster and the assignment of a group. A fetch that is let in waits, and
is answered from the log as it is by then.
-/

namespace Replog.Controller
open Replog.Library

def ClusterMeta.toProto (c : ClusterMeta) : Proto.ClusterMeta where
  version := .ofNat c.version
  brokers := c.brokers
  peers := c.peers
  topics := c.topics.map fun t =>
    { name := t.1
      partitions := t.2.map fun p =>
        { partition := .ofNat p.partition, leader := p.leader
          leaderEpoch := .ofNat p.leaderEpoch, replicas := p.replicas, isr := p.isr } }

def Request.ofProto : Proto.Request → Request
  | .registerBroker brokerId addr peerAddr => .registerBroker brokerId addr peerAddr
  | .brokerHeartbeat brokerId _ => .brokerHeartbeat brokerId
  | .controllerMetadata => .controllerMetadata
  | .createTopic topic partitions replicationFactor =>
    .createTopic topic partitions.toNat replicationFactor.toNat
  | .alterIsr topic partition leaderEpoch isr =>
    .alterIsr topic partition.toNat leaderEpoch.toNat isr
  | _ => .other

def Response.toProto : Response → Proto.Response
  | .registerBroker error version => .registerBroker error (.ofNat version)
  | .brokerHeartbeat error version => .brokerHeartbeat error (.ofNat version)
  | .controllerMetadata error cluster => .controllerMetadata error cluster.toProto
  | .createTopic error => .createTopic error
  | .alterIsr error version => .alterIsr error (.ofNat version)

end Replog.Controller

namespace Replog.Serving
open Replog.Library Replog.Storage
open Replog.Proto (ErrorCode FetchedRecord Request Response)
open Replog.Groups (GroupCall GroupCoordinator)
open Replog.Hosting (validTopicName)
open Replog.Partition (mapFailure)

/-- A partition, or in a cluster a replica of one, with the records that its log stands for. -/
structure Hosted where
  log : Log × Fs
  records : List Record
  isLeader : Bool
  epoch : UInt64
  hwm : ℕ

structure Broker where
  clustered : Bool
  advertised : String
  /-- The topics of a broker without a cluster. -/
  topics : Assoc String ℕ
  clusterMeta : Proto.ClusterMeta
  hosted : String → UInt32 → Option Hosted
  coordinator : GroupCoordinator
  waiting : List Request

def fetchedRecord (r : Record) : FetchedRecord where
  offset := .ofNat r.offset
  timestampMs := r.timestampMs
  key := r.key
  value := r.value

namespace Hosted

variable (crc : List UInt8 → UInt32) (h : Hosted)

/-- What the thread of the partition answers to a read. -/
def read (offset maxBytes : ℕ) : Except ErrorCode (List Record) :=
  match (Log.read crc offset maxBytes).run h.log with
  | .ok records _ => .ok records
  | .error e _ => .error (mapFailure e)

def logStart : UInt64 := .ofNat h.log.1.startOffset

def nextOffset : UInt64 := .ofNat h.log.1.nextOffset

def handleFetch (offset maxBytes : ℕ) : Response :=
  match h.read crc offset maxBytes with
  | .ok records => .fetch .none h.logStart h.nextOffset (records.map fetchedRecord)
  | .error code => .fetch code 0 0 []

/-- A consumer sees no further than the high-water mark. -/
def handleFetchHwm (offset maxBytes : ℕ) : Response :=
  if h.log.1.nextOffset < offset then .fetch .offsetOutOfRange 0 (.ofNat h.hwm) []
  else if offset < h.hwm then
    match h.read crc offset maxBytes with
    | .ok records =>
      .fetch .none h.logStart (.ofNat h.hwm)
        ((records.takeWhile (·.offset < h.hwm)).map fetchedRecord)
    | .error code => .fetch code 0 (.ofNat h.hwm) []
  else .fetch .none 0 (.ofNat h.hwm) []

def handleReplicaFetch (leaderEpoch : UInt64) (offset maxBytes : ℕ) : Response :=
  match h.read crc offset maxBytes with
  | .ok records =>
    .replicaFetch .none leaderEpoch h.nextOffset (.ofNat h.hwm) (records.map fetchedRecord)
  | .error code => .replicaFetch code leaderEpoch 0 0 []

end Hosted

/-! ## A broker -/

/-- What happens on a broker, as far as its responses depend on it. -/
inductive Broker.Action where
  | createTopic (topic : String) (partitions replicationFactor : UInt32) (clock : Clock)
  /-- A replica is opened where the metadata asks for it. -/
  | host (topic : String) (partition : UInt32) (clock : Clock)
  | log (topic : String) (partition : UInt32) (op : LogOp)
  | role (topic : String) (partition : UInt32) (isLeader : Bool) (epoch : UInt64) (hwm : ℕ)
  | metadata (cluster : Proto.ClusterMeta)
  | call (c : GroupCall)
  | letIn (req : Request)
  | answered (k : ℕ)

namespace Broker

def init (clustered : Bool) (advertised : String) : Broker where
  clustered
  advertised
  topics := ∅
  clusterMeta := default
  hosted _ _ := none
  coordinator := .new
  waiting := []

/-- The metadata clients get; without a cluster the broker leads everything at epoch 0. -/
def metadata (b : Broker) : Proto.ClusterMeta :=
  if b.clustered then b.clusterMeta
  else {
    version := 0
    brokers := [(0, b.advertised)]
    peers := [(0, b.advertised)]
    topics := b.topics.sorted.map fun t =>
      { name := t.1
        partitions := (List.range t.2).map fun p =>
          { partition := .ofNat p, leader := 0, leaderEpoch := 0, replicas := [0], isr := [0] } } }

def topicPartitions (b : Broker) (topic : String) : Option ℕ :=
  if b.clustered then (b.clusterMeta.topics.find? (·.name = topic)).map (·.partitions.length)
  else b.topics.lookup topic

def setHosted (b : Broker) (topic : String) (partition : UInt32) (h : Hosted) : Broker :=
  { b with hosted := fun topic' partition' =>
      if topic' = topic ∧ partition' = partition then some h else b.hosted topic' partition' }

/-- Whether a fetch is let in, to be answered from the log. -/
def admits (b : Broker) : Request → Bool
  | .fetch topic partition _ _ _ =>
    (b.hosted topic partition).any fun h => !b.clustered || h.isLeader
  | .replicaFetch topic partition _ leaderEpoch _ _ _ =>
    b.clustered && (b.hosted topic partition).any fun h => h.isLeader && leaderEpoch = h.epoch
  | _ => false

section Step

variable (crc : List UInt8 → UInt32) (config : LogConfig)

def openNew (clock : Clock) : Option Hosted :=
  match (Log.openDir crc config clock).run ⟨Dir.empty, [], []⟩ with
  | .ok log fs => some { log := (log, fs), records := [], isLeader := false, epoch := 0, hwm := 0 }
  | .error _ _ => none

/-- An operation of a partition's thread; the log has room for one more record. -/
def stepLog (op : LogOp) (h : Hosted) : Option Hosted :=
  if h.records.length < 2 ^ 64 then
    some { h with log := (op.step crc h.log).2, records := (op.spec config h.records).2 }
  else none

def step (b : Broker) : Action → Option Broker
  | .createTopic topic partitions replicationFactor clock =>
    if b.clustered || 1 < replicationFactor || !validTopicName topic || partitions = 0 ||
        1024 < partitions || topic ∈ b.topics then some b
    else
      some { b with
        topics := b.topics.insert topic partitions.toNat
        hosted := fun topic' partition' =>
          if topic' = topic ∧ partition' < partitions then openNew crc config clock
          else b.hosted topic' partition' }
  | .host topic partition clock =>
    match b.hosted topic partition with
    | some _ => some b
    | none => (openNew crc config clock).map (b.setHosted topic partition)
  | .log topic partition op =>
    match b.hosted topic partition with
    | some h => (stepLog crc config op h).map (b.setHosted topic partition)
    | none => none
  | .role topic partition isLeader epoch hwm =>
    match b.hosted topic partition with
    | some h => some (b.setHosted topic partition { h with isLeader, epoch, hwm })
    | none => none
  | .metadata cluster => some { b with clusterMeta := cluster }
  | .call c => some { b with coordinator := b.coordinator.call (c.action b.topicPartitions) }
  | .letIn req => if b.admits req then some { b with waiting := req :: b.waiting } else none
  | .answered k => some { b with waiting := b.waiting.eraseIdx k }

end Step

/-- The responses that a request may get in this state. Where a response has nothing in it but
numbers and an error, any are allowed. -/
inductive Answers (crc : List UInt8 → UInt32) (b : Broker) : Request → Response → Prop where
  | createTopic (topic : String) (partitions replicationFactor : UInt32) (error : ErrorCode) :
      Answers crc b (.createTopic topic partitions replicationFactor) (.createTopic error)
  | metadata : Answers crc b .metadata (.metadata .none b.metadata)
  | produce (topic : String) (partition : UInt32) (acks : Proto.Acks) (leaderEpoch : UInt64)
      (records : List Proto.ProduceRecord) (error : ErrorCode) (base : UInt64) (count : UInt32) :
      Answers crc b (.produce topic partition acks leaderEpoch records) (.produce error base count)
  | fetchRefused (topic : String) (partition : UInt32) (offset : UInt64)
      (maxBytes maxWaitMs : UInt32) (error : ErrorCode) :
      Answers crc b (.fetch topic partition offset maxBytes maxWaitMs) (.fetch error 0 0 [])
  | fetched (topic : String) (partition : UInt32) (offset : UInt64) (maxBytes maxWaitMs : UInt32)
      (h : Hosted) (hin : .fetch topic partition offset maxBytes maxWaitMs ∈ b.waiting)
      (hhosted : b.hosted topic partition = some h) :
      Answers crc b (.fetch topic partition offset maxBytes maxWaitMs)
        (if b.clustered then h.handleFetchHwm crc offset.toNat maxBytes.toNat
          else h.handleFetch crc offset.toNat maxBytes.toNat)
  | replicaFetchRefused (topic : String) (partition followerId : UInt32)
      (leaderEpoch offset : UInt64) (maxBytes maxWaitMs : UInt32) (error : ErrorCode) :
      Answers crc b (.replicaFetch topic partition followerId leaderEpoch offset maxBytes maxWaitMs)
        (.replicaFetch error 0 0 0 [])
  | replicaFetched (topic : String) (partition followerId : UInt32) (leaderEpoch offset : UInt64)
      (maxBytes maxWaitMs : UInt32) (h : Hosted)
      (hin : .replicaFetch topic partition followerId leaderEpoch offset maxBytes maxWaitMs ∈
        b.waiting)
      (hhosted : b.hosted topic partition = some h) :
      Answers crc b (.replicaFetch topic partition followerId leaderEpoch offset maxBytes maxWaitMs)
        (h.handleReplicaFetch crc leaderEpoch offset.toNat maxBytes.toNat)
  | epochCheck (topic : String) (partition : UInt32) (epoch : UInt64) (error : ErrorCode)
      (endOffset : UInt64) :
      Answers crc b (.epochCheck topic partition epoch) (.epochCheck error endOffset)
  | commitOffset (group topic : String) (partition : UInt32) (offset : UInt64) (memberId : String)
      (generation : UInt64) (error : ErrorCode) :
      Answers crc b (.commitOffset group topic partition offset memberId generation)
        (.commitOffset error)
  | fetchOffset (group topic : String) (partition : UInt32) (offset : Int64) :
      Answers crc b (.fetchOffset group topic partition) (.fetchOffset .none offset)
  | joinGroup (group memberId : String) (sessionTimeoutMs : UInt32) (topics : List String)
      (now : ℕ) :
      Answers crc b (.joinGroup group memberId sessionTimeoutMs topics)
        (let outcome := (b.coordinator.join group memberId sessionTimeoutMs.toNat topics
          b.topicPartitions now).1
        .joinGroup .none outcome.memberId (.ofNat outcome.generation)
          (outcome.assignment.map fun a => (a.1, .ofNat a.2)))
  | heartbeat (group memberId : String) (generation : UInt64) (error : ErrorCode) :
      Answers crc b (.heartbeat group memberId generation) (.heartbeat error)
  | leaveGroup (group memberId : String) (error : ErrorCode) :
      Answers crc b (.leaveGroup group memberId) (.leaveGroup error)
  | registerBroker (brokerId : UInt32) (addr peerAddr : String) :
      Answers crc b (.registerBroker brokerId addr peerAddr) (.registerBroker .malformed 0)
  | brokerHeartbeat (brokerId : UInt32) (version : UInt64) :
      Answers crc b (.brokerHeartbeat brokerId version) (.brokerHeartbeat .malformed 0)
  | alterIsr (topic : String) (partition : UInt32) (leaderEpoch : UInt64) (isr : List UInt32) :
      Answers crc b (.alterIsr topic partition leaderEpoch isr) (.alterIsr .malformed 0)
  | controllerMetadata :
      Answers crc b .controllerMetadata (.controllerMetadata .malformed default)

end Broker

/-! ## A server is a broker or the controller -/

inductive Server where
  | controller (c : Controller.Shared)
  | broker (b : Broker)

namespace Server

inductive Kind where
  | controller (config : Controller.ControllerConfig)
  | broker (clustered : Bool) (advertised : String)

inductive Action where
  | controller (a : Controller.Action)
  | broker (a : Broker.Action)

def init : Kind → Server
  | .controller config => .controller { config, mem := .empty, disk := none }
  | .broker clustered advertised => .broker (.init clustered advertised)

def step (crc : List UInt8 → UInt32) (config : LogConfig) : Server → Action → Option Server
  | .controller c, .controller a => some (.controller (c.act a))
  | .broker b, .broker a => (b.step crc config a).map .broker
  | _, _ => none

def Free (_ : Server) (_ : Action) : Prop := True

/-- The responses that a request may get. -/
def Answers (crc : List UInt8 → UInt32) : Server → Request → Response → Prop
  | .controller c, req, resp => ∃ now persisted,
      resp = (c.handle (.ofProto req) now persisted).1.toProto
  | .broker b, req, resp => b.Answers crc req resp

end Server
end Replog.Serving
