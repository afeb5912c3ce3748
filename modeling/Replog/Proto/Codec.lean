import Replog.Proto.Message

/-!
# Frames

A frame is a `u32` length, the protocol version, the message type, the correlation id and a body
for each message type. Responses set the high bit of the type.
-/

namespace Replog.Proto
open Replog.LittleEndian Replog.Library Wire

def VERSION : UInt8 := 1
def RESPONSE_BIT : UInt8 := 0x80

def MSG_CREATE_TOPIC : UInt8 := 1
def MSG_METADATA : UInt8 := 2
def MSG_PRODUCE : UInt8 := 3
def MSG_FETCH : UInt8 := 4
def MSG_COMMIT_OFFSET : UInt8 := 5
def MSG_FETCH_OFFSET : UInt8 := 6
def MSG_JOIN_GROUP : UInt8 := 7
def MSG_HEARTBEAT : UInt8 := 8
def MSG_LEAVE_GROUP : UInt8 := 9
def MSG_REPLICA_FETCH : UInt8 := 10
def MSG_EPOCH_CHECK : UInt8 := 11
def MSG_REGISTER_BROKER : UInt8 := 12
def MSG_BROKER_HEARTBEAT : UInt8 := 13
def MSG_ALTER_ISR : UInt8 := 14
def MSG_CONTROLLER_METADATA : UInt8 := 15

/-! ## Writing -/

def putError (e : ErrorCode) : List UInt8 := putU16 e.toU16

def putAddress (p : UInt32 × String) : List UInt8 := putU32 p.1 ++ putStr p.2

def putPartitionMeta (p : PartitionMeta) : List UInt8 :=
  putU32 p.partition ++ (putI32 p.leader ++ (putU64 p.leaderEpoch ++
    (putVec putU32 p.replicas ++ putVec putU32 p.isr)))

def putTopicMeta (t : TopicMeta) : List UInt8 :=
  putStr t.name ++ putVec putPartitionMeta t.partitions

def putClusterMeta (c : ClusterMeta) : List UInt8 :=
  putU64 c.version ++ (putVec putAddress c.brokers ++ (putVec putAddress c.peers ++
    putVec putTopicMeta c.topics))

def putProduceRecord (r : ProduceRecord) : List UInt8 := putOptBytes r.key ++ putBytes r.value

def putFetchedRecord (r : FetchedRecord) : List UInt8 :=
  putU64 r.offset ++ (putI64 r.timestampMs ++ (putOptBytes r.key ++ putBytes r.value))

def putAssigned (p : String × UInt32) : List UInt8 := putStr p.1 ++ putU32 p.2

def frameHeader (msgType : UInt8) (corr : UInt32) : List UInt8 :=
  [0, 0, 0, 0] ++ (putU8 VERSION ++ (putU8 msgType ++ putU32 corr))

/-- Writes the length over the first four bytes. -/
def finishFrame (out : List UInt8) : List UInt8 := leBytes 4 (out.length - 4) ++ out.drop 4

def frame (msgType : UInt8) (corr : UInt32) (body : List UInt8) : List UInt8 :=
  finishFrame (frameHeader msgType corr ++ body)

def encodeRequest (req : Request) (corr : UInt32) : List UInt8 :=
  match req with
  | .createTopic topic partitions replicationFactor =>
    frame MSG_CREATE_TOPIC corr (putStr topic ++ (putU32 partitions ++ putU32 replicationFactor))
  | .metadata => frame MSG_METADATA corr []
  | .produce topic partition acks leaderEpoch records =>
    frame MSG_PRODUCE corr (putStr topic ++ (putU32 partition ++ (putU8 acks.toU8 ++
      (putU64 leaderEpoch ++ putVec putProduceRecord records))))
  | .replicaFetch topic partition followerId leaderEpoch offset maxBytes maxWaitMs =>
    frame MSG_REPLICA_FETCH corr (putStr topic ++ (putU32 partition ++ (putU32 followerId ++
      (putU64 leaderEpoch ++ (putU64 offset ++ (putU32 maxBytes ++ putU32 maxWaitMs))))))
  | .epochCheck topic partition epoch =>
    frame MSG_EPOCH_CHECK corr (putStr topic ++ (putU32 partition ++ putU64 epoch))
  | .registerBroker brokerId addr peerAddr =>
    frame MSG_REGISTER_BROKER corr (putU32 brokerId ++ (putStr addr ++ putStr peerAddr))
  | .brokerHeartbeat brokerId metadataVersion =>
    frame MSG_BROKER_HEARTBEAT corr (putU32 brokerId ++ putU64 metadataVersion)
  | .alterIsr topic partition leaderEpoch isr =>
    frame MSG_ALTER_ISR corr (putStr topic ++ (putU32 partition ++ (putU64 leaderEpoch ++
      putVec putU32 isr)))
  | .controllerMetadata => frame MSG_CONTROLLER_METADATA corr []
  | .fetch topic partition offset maxBytes maxWaitMs =>
    frame MSG_FETCH corr (putStr topic ++ (putU32 partition ++ (putU64 offset ++
      (putU32 maxBytes ++ putU32 maxWaitMs))))
  | .commitOffset group topic partition offset memberId generation =>
    frame MSG_COMMIT_OFFSET corr (putStr group ++ (putStr topic ++ (putU32 partition ++
      (putU64 offset ++ (putStr memberId ++ putU64 generation)))))
  | .fetchOffset group topic partition =>
    frame MSG_FETCH_OFFSET corr (putStr group ++ (putStr topic ++ putU32 partition))
  | .joinGroup group memberId sessionTimeoutMs topics =>
    frame MSG_JOIN_GROUP corr (putStr group ++ (putStr memberId ++ (putU32 sessionTimeoutMs ++
      putVec putStr topics)))
  | .heartbeat group memberId generation =>
    frame MSG_HEARTBEAT corr (putStr group ++ (putStr memberId ++ putU64 generation))
  | .leaveGroup group memberId =>
    frame MSG_LEAVE_GROUP corr (putStr group ++ putStr memberId)

def encodeResponse (resp : Response) (corr : UInt32) : List UInt8 :=
  match resp with
  | .createTopic error => frame (MSG_CREATE_TOPIC ||| RESPONSE_BIT) corr (putError error)
  | .metadata error cluster =>
    frame (MSG_METADATA ||| RESPONSE_BIT) corr (putError error ++ putClusterMeta cluster)
  | .replicaFetch error leaderEpoch logEnd highWatermark records =>
    frame (MSG_REPLICA_FETCH ||| RESPONSE_BIT) corr (putError error ++ (putU64 leaderEpoch ++
      (putU64 logEnd ++ (putU64 highWatermark ++ putVec putFetchedRecord records))))
  | .epochCheck error endOffset =>
    frame (MSG_EPOCH_CHECK ||| RESPONSE_BIT) corr (putError error ++ putU64 endOffset)
  | .registerBroker error metadataVersion =>
    frame (MSG_REGISTER_BROKER ||| RESPONSE_BIT) corr (putError error ++ putU64 metadataVersion)
  | .brokerHeartbeat error metadataVersion =>
    frame (MSG_BROKER_HEARTBEAT ||| RESPONSE_BIT) corr (putError error ++ putU64 metadataVersion)
  | .alterIsr error metadataVersion =>
    frame (MSG_ALTER_ISR ||| RESPONSE_BIT) corr (putError error ++ putU64 metadataVersion)
  | .controllerMetadata error cluster =>
    frame (MSG_CONTROLLER_METADATA ||| RESPONSE_BIT) corr
      (putError error ++ putClusterMeta cluster)
  | .produce error baseOffset count =>
    frame (MSG_PRODUCE ||| RESPONSE_BIT) corr
      (putError error ++ (putU64 baseOffset ++ putU32 count))
  | .fetch error logStart nextOffset records =>
    frame (MSG_FETCH ||| RESPONSE_BIT) corr (putError error ++ (putU64 logStart ++
      (putU64 nextOffset ++ putVec putFetchedRecord records)))
  | .commitOffset error => frame (MSG_COMMIT_OFFSET ||| RESPONSE_BIT) corr (putError error)
  | .fetchOffset error offset =>
    frame (MSG_FETCH_OFFSET ||| RESPONSE_BIT) corr (putError error ++ putI64 offset)
  | .joinGroup error memberId generation assignment =>
    frame (MSG_JOIN_GROUP ||| RESPONSE_BIT) corr (putError error ++ (putStr memberId ++
      (putU64 generation ++ putVec putAssigned assignment)))
  | .heartbeat error => frame (MSG_HEARTBEAT ||| RESPONSE_BIT) corr (putError error)
  | .leaveGroup error => frame (MSG_LEAVE_GROUP ||| RESPONSE_BIT) corr (putError error)

/-! ## Reading -/

def readError : Reader ErrorCode := do Reader.lift (ErrorCode.fromU16 (← u16))

def readAcks : Reader Acks := do Reader.lift (Acks.fromU8 (← u8))

def readAddress : Reader (UInt32 × String) := do
  let id ← u32
  let addr ← string
  return (id, addr)

def readPartitionMeta : Reader PartitionMeta := do
  let partition ← u32
  let leader ← i32
  let leaderEpoch ← u64
  let replicas ← vec u32
  let isr ← vec u32
  return { partition, leader, leaderEpoch, replicas, isr }

def readTopicMeta : Reader TopicMeta := do
  let name ← string
  let partitions ← vec readPartitionMeta
  return { name, partitions }

def readClusterMeta : Reader ClusterMeta := do
  let version ← u64
  let brokers ← vec readAddress
  let peers ← vec readAddress
  let topics ← vec readTopicMeta
  return { version, brokers, peers, topics }

def readProduceRecord : Reader ProduceRecord := do
  let key ← optBytes
  let value ← bytes
  return { key, value }

def readFetchedRecord : Reader FetchedRecord := do
  let offset ← u64
  let timestampMs ← i64
  let key ← optBytes
  let value ← bytes
  return { offset, timestampMs, key, value }

def readAssigned : Reader (String × UInt32) := do
  let topic ← string
  let partition ← u32
  return (topic, partition)

/-- The message type and the correlation id. -/
def readHeader : Reader (UInt8 × UInt32) := do
  let version ← u8
  if version ≠ VERSION then Reader.fail (.badVersion version)
  else
    let msgType ← u8
    let corr ← u32
    return (msgType, corr)

def readRequest (msgType : UInt8) : Reader Request :=
  if msgType = MSG_CREATE_TOPIC then do
    let topic ← string
    let partitions ← u32
    let replicationFactor ← u32
    return .createTopic topic partitions replicationFactor
  else if msgType = MSG_METADATA then return .metadata
  else if msgType = MSG_PRODUCE then do
    let topic ← string
    let partition ← u32
    let acks ← readAcks
    let leaderEpoch ← u64
    let records ← vec readProduceRecord
    return .produce topic partition acks leaderEpoch records
  else if msgType = MSG_REPLICA_FETCH then do
    let topic ← string
    let partition ← u32
    let followerId ← u32
    let leaderEpoch ← u64
    let offset ← u64
    let maxBytes ← u32
    let maxWaitMs ← u32
    return .replicaFetch topic partition followerId leaderEpoch offset maxBytes maxWaitMs
  else if msgType = MSG_EPOCH_CHECK then do
    let topic ← string
    let partition ← u32
    let epoch ← u64
    return .epochCheck topic partition epoch
  else if msgType = MSG_REGISTER_BROKER then do
    let brokerId ← u32
    let addr ← string
    let peerAddr ← string
    return .registerBroker brokerId addr peerAddr
  else if msgType = MSG_BROKER_HEARTBEAT then do
    let brokerId ← u32
    let metadataVersion ← u64
    return .brokerHeartbeat brokerId metadataVersion
  else if msgType = MSG_ALTER_ISR then do
    let topic ← string
    let partition ← u32
    let leaderEpoch ← u64
    let isr ← vec u32
    return .alterIsr topic partition leaderEpoch isr
  else if msgType = MSG_CONTROLLER_METADATA then return .controllerMetadata
  else if msgType = MSG_FETCH then do
    let topic ← string
    let partition ← u32
    let offset ← u64
    let maxBytes ← u32
    let maxWaitMs ← u32
    return .fetch topic partition offset maxBytes maxWaitMs
  else if msgType = MSG_COMMIT_OFFSET then do
    let group ← string
    let topic ← string
    let partition ← u32
    let offset ← u64
    let memberId ← string
    let generation ← u64
    return .commitOffset group topic partition offset memberId generation
  else if msgType = MSG_FETCH_OFFSET then do
    let group ← string
    let topic ← string
    let partition ← u32
    return .fetchOffset group topic partition
  else if msgType = MSG_JOIN_GROUP then do
    let group ← string
    let memberId ← string
    let sessionTimeoutMs ← u32
    let topics ← vec string
    return .joinGroup group memberId sessionTimeoutMs topics
  else if msgType = MSG_HEARTBEAT then do
    let group ← string
    let memberId ← string
    let generation ← u64
    return .heartbeat group memberId generation
  else if msgType = MSG_LEAVE_GROUP then do
    let group ← string
    let memberId ← string
    return .leaveGroup group memberId
  else Reader.fail (.unknownMsgType msgType)

def readResponse (msgType : UInt8) : Reader Response :=
  if msgType = MSG_CREATE_TOPIC ||| RESPONSE_BIT then do
    return .createTopic (← readError)
  else if msgType = MSG_METADATA ||| RESPONSE_BIT then do
    let error ← readError
    let cluster ← readClusterMeta
    return .metadata error cluster
  else if msgType = MSG_REPLICA_FETCH ||| RESPONSE_BIT then do
    let error ← readError
    let leaderEpoch ← u64
    let logEnd ← u64
    let highWatermark ← u64
    let records ← vec readFetchedRecord
    return .replicaFetch error leaderEpoch logEnd highWatermark records
  else if msgType = MSG_EPOCH_CHECK ||| RESPONSE_BIT then do
    let error ← readError
    let endOffset ← u64
    return .epochCheck error endOffset
  else if msgType = MSG_REGISTER_BROKER ||| RESPONSE_BIT then do
    let error ← readError
    let metadataVersion ← u64
    return .registerBroker error metadataVersion
  else if msgType = MSG_BROKER_HEARTBEAT ||| RESPONSE_BIT then do
    let error ← readError
    let metadataVersion ← u64
    return .brokerHeartbeat error metadataVersion
  else if msgType = MSG_ALTER_ISR ||| RESPONSE_BIT then do
    let error ← readError
    let metadataVersion ← u64
    return .alterIsr error metadataVersion
  else if msgType = MSG_CONTROLLER_METADATA ||| RESPONSE_BIT then do
    let error ← readError
    let cluster ← readClusterMeta
    return .controllerMetadata error cluster
  else if msgType = MSG_PRODUCE ||| RESPONSE_BIT then do
    let error ← readError
    let baseOffset ← u64
    let count ← u32
    return .produce error baseOffset count
  else if msgType = MSG_FETCH ||| RESPONSE_BIT then do
    let error ← readError
    let logStart ← u64
    let nextOffset ← u64
    let records ← vec readFetchedRecord
    return .fetch error logStart nextOffset records
  else if msgType = MSG_COMMIT_OFFSET ||| RESPONSE_BIT then do
    return .commitOffset (← readError)
  else if msgType = MSG_FETCH_OFFSET ||| RESPONSE_BIT then do
    let error ← readError
    let offset ← i64
    return .fetchOffset error offset
  else if msgType = MSG_JOIN_GROUP ||| RESPONSE_BIT then do
    let error ← readError
    let memberId ← string
    let generation ← u64
    let assignment ← vec readAssigned
    return .joinGroup error memberId generation assignment
  else if msgType = MSG_HEARTBEAT ||| RESPONSE_BIT then do
    return .heartbeat (← readError)
  else if msgType = MSG_LEAVE_GROUP ||| RESPONSE_BIT then do
    return .leaveGroup (← readError)
  else Reader.fail (.unknownMsgType msgType)

/-- Decodes the bytes after the length field. -/
def decode {α : Type} (body : UInt8 → Reader α) (buf : List UInt8) :
    Except ProtoError (UInt32 × α) :=
  readAll (do
    let (msgType, corr) ← readHeader
    let m ← body msgType
    return (corr, m)) buf

def decodeRequest (buf : List UInt8) : Except ProtoError (UInt32 × Request) :=
  decode readRequest buf

def decodeResponse (buf : List UInt8) : Except ProtoError (UInt32 × Response) :=
  decode readResponse buf

end Replog.Proto
