import Replog.Proto.Wire

/-!
# The messages

The requests and responses of the protocol, shared by broker, controller and clients.
-/

namespace Replog.Proto

inductive ErrorCode where
  | none
  | unknownTopicOrPartition
  | offsetOutOfRange
  | storage
  | malformed
  | topicExists
  | unknownMember
  | staleGeneration
  | notLeader
  | fencedEpoch
  | notEnoughReplicas
  | offline
  deriving DecidableEq, Repr

namespace ErrorCode

def toU16 : ErrorCode → UInt16
  | none => 0
  | unknownTopicOrPartition => 1
  | offsetOutOfRange => 2
  | storage => 3
  | malformed => 4
  | topicExists => 5
  | unknownMember => 6
  | staleGeneration => 7
  | notLeader => 8
  | fencedEpoch => 9
  | notEnoughReplicas => 10
  | offline => 11

def fromU16 (v : UInt16) : Except ProtoError ErrorCode :=
  match v with
  | 0 => .ok none
  | 1 => .ok unknownTopicOrPartition
  | 2 => .ok offsetOutOfRange
  | 3 => .ok storage
  | 4 => .ok malformed
  | 5 => .ok topicExists
  | 6 => .ok unknownMember
  | 7 => .ok staleGeneration
  | 8 => .ok notLeader
  | 9 => .ok fencedEpoch
  | 10 => .ok notEnoughReplicas
  | 11 => .ok offline
  | _ => .error (.malformed s!"unknown error code {v}")

theorem fromU16_toU16 (e : ErrorCode) : fromU16 e.toU16 = .ok e := by cases e <;> rfl

end ErrorCode

/-- When the broker acknowledges a produce. -/
inductive Acks where
  | none
  | written
  | durable
  | all
  deriving DecidableEq, Repr

namespace Acks

def toU8 : Acks → UInt8
  | none => 0
  | written => 1
  | durable => 2
  | all => 3

def fromU8 (v : UInt8) : Except ProtoError Acks :=
  match v with
  | 0 => .ok none
  | 1 => .ok written
  | 2 => .ok durable
  | 3 => .ok all
  | _ => .error (.malformed s!"unknown acks value {v}")

theorem fromU8_toU8 (a : Acks) : fromU8 a.toU8 = .ok a := by cases a <;> rfl

end Acks

/-- The leader is `-1` when the partition is offline. -/
structure PartitionMeta where
  partition : UInt32
  leader : Int32
  leaderEpoch : UInt64
  replicas : List UInt32
  isr : List UInt32
  deriving DecidableEq

structure TopicMeta where
  name : String
  partitions : List PartitionMeta
  deriving DecidableEq

structure ClusterMeta where
  version : UInt64
  brokers : List (UInt32 × String)
  peers : List (UInt32 × String)
  topics : List TopicMeta
  deriving DecidableEq

instance : Inhabited ClusterMeta := ⟨⟨0, [], [], []⟩⟩

structure ProduceRecord where
  key : Option (List UInt8)
  value : List UInt8
  deriving DecidableEq

structure FetchedRecord where
  offset : UInt64
  timestampMs : Int64
  key : Option (List UInt8)
  value : List UInt8
  deriving DecidableEq

inductive Request where
  | createTopic (topic : String) (partitions replicationFactor : UInt32)
  | metadata
  | produce (topic : String) (partition : UInt32) (acks : Acks) (leaderEpoch : UInt64)
      (records : List ProduceRecord)
  | fetch (topic : String) (partition : UInt32) (offset : UInt64) (maxBytes maxWaitMs : UInt32)
  | replicaFetch (topic : String) (partition followerId : UInt32) (leaderEpoch offset : UInt64)
      (maxBytes maxWaitMs : UInt32)
  | epochCheck (topic : String) (partition : UInt32) (epoch : UInt64)
  | registerBroker (brokerId : UInt32) (addr peerAddr : String)
  | brokerHeartbeat (brokerId : UInt32) (metadataVersion : UInt64)
  | alterIsr (topic : String) (partition : UInt32) (leaderEpoch : UInt64) (isr : List UInt32)
  | controllerMetadata
  | commitOffset (group topic : String) (partition : UInt32) (offset : UInt64) (memberId : String)
      (generation : UInt64)
  | fetchOffset (group topic : String) (partition : UInt32)
  | joinGroup (group memberId : String) (sessionTimeoutMs : UInt32) (topics : List String)
  | heartbeat (group memberId : String) (generation : UInt64)
  | leaveGroup (group memberId : String)
  deriving DecidableEq

inductive Response where
  | createTopic (error : ErrorCode)
  | metadata (error : ErrorCode) (cluster : ClusterMeta)
  | produce (error : ErrorCode) (baseOffset : UInt64) (count : UInt32)
  | fetch (error : ErrorCode) (logStart nextOffset : UInt64) (records : List FetchedRecord)
  | replicaFetch (error : ErrorCode) (leaderEpoch logEnd highWatermark : UInt64)
      (records : List FetchedRecord)
  | epochCheck (error : ErrorCode) (endOffset : UInt64)
  | registerBroker (error : ErrorCode) (metadataVersion : UInt64)
  | brokerHeartbeat (error : ErrorCode) (metadataVersion : UInt64)
  | alterIsr (error : ErrorCode) (metadataVersion : UInt64)
  | controllerMetadata (error : ErrorCode) (cluster : ClusterMeta)
  | commitOffset (error : ErrorCode)
  | fetchOffset (error : ErrorCode) (offset : Int64)
  | joinGroup (error : ErrorCode) (memberId : String) (generation : UInt64)
      (assignment : List (String × UInt32))
  | heartbeat (error : ErrorCode)
  | leaveGroup (error : ErrorCode)
  deriving DecidableEq

end Replog.Proto
