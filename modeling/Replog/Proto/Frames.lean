import Replog.Proto.RoundTrip

/-!
# The lengths of frames

A receiver takes frames up to a limit. Nothing on the sending side looks at the limit: the length
field is the size of the message cast to a `u32`.
-/

namespace Replog.Proto
open Replog.LittleEndian Replog.Library
open Wire

def MAX_FRAME_BYTES : ℕ := 32 * 1024 * 1024

inductive FrameError where
  | outOfBounds (len : ℕ)
  | unexpectedEof
  deriving DecidableEq

/-- Reads a frame off what a peer sends, with the rest; `none` where it ends before a frame. -/
def readFrame (stream : List UInt8) : Except FrameError (Option (List UInt8 × List UInt8)) :=
  if stream.length < 4 then .ok none
  else
    let len := leValue (stream.take 4)
    if len = 0 ∨ MAX_FRAME_BYTES < len then .error (.outOfBounds len)
    else if stream.length < 4 + len then .error .unexpectedEof
    else .ok (some ((stream.drop 4).take len, stream.drop (4 + len)))

/-- The length field of a frame is one that `readFrame` goes on with. -/
def LengthAccepted (frame : List UInt8) : Prop :=
  leValue (frame.take 4) ≠ 0 ∧ leValue (frame.take 4) ≤ MAX_FRAME_BYTES

/-- The same of the size of a message, which the length field keeps the low 32 bits of. -/
def SizeAccepted (n : ℕ) : Prop := n % 2 ^ 32 ≠ 0 ∧ n % 2 ^ 32 ≤ MAX_FRAME_BYTES

instance (n : ℕ) : Decidable (SizeAccepted n) :=
  inferInstanceAs (Decidable (_ ∧ _))

/-! ## Sizes -/

def strSize (s : String) : ℕ := 2 + s.utf8ByteSize

def PartitionMeta.size (p : PartitionMeta) : ℕ :=
  24 + 4 * p.replicas.length + 4 * p.isr.length

def TopicMeta.size (t : TopicMeta) : ℕ :=
  strSize t.name + 4 + (t.partitions.map PartitionMeta.size).sum

def addressesSize (l : List (UInt32 × String)) : ℕ := 4 + (l.map fun a => 4 + strSize a.2).sum

def ClusterMeta.size (c : ClusterMeta) : ℕ :=
  8 + addressesSize c.brokers + addressesSize c.peers + 4 + (c.topics.map TopicMeta.size).sum

def FetchedRecord.size (r : FetchedRecord) : ℕ := 24 + r.key.elim 0 List.length + r.value.length

def recordsSize (l : List FetchedRecord) : ℕ := 4 + (l.map FetchedRecord.size).sum

def assignmentSize (l : List (String × UInt32)) : ℕ := 4 + (l.map fun a => strSize a.1 + 4).sum

/-- The bytes of a response behind the header. -/
def Response.size : Response → ℕ
  | .createTopic _ => 2
  | .metadata _ cluster => 2 + cluster.size
  | .produce _ _ _ => 14
  | .fetch _ _ _ records => 18 + recordsSize records
  | .replicaFetch _ _ _ _ records => 26 + recordsSize records
  | .epochCheck _ _ => 10
  | .registerBroker _ _ => 10
  | .brokerHeartbeat _ _ => 10
  | .alterIsr _ _ => 10
  | .controllerMetadata _ cluster => 2 + cluster.size
  | .commitOffset _ => 2
  | .fetchOffset _ _ => 10
  | .joinGroup _ memberId _ assignment => 10 + strSize memberId + assignmentSize assignment
  | .heartbeat _ => 2
  | .leaveGroup _ => 2

@[simp] theorem length_putU8 (v : UInt8) : (putU8 v).length = 1 := length_leBytes ..
@[simp] theorem length_putU32 (v : UInt32) : (putU32 v).length = 4 := length_leBytes ..
@[simp] theorem length_putU64 (v : UInt64) : (putU64 v).length = 8 := length_leBytes ..
@[simp] theorem length_putI32 (v : Int32) : (putI32 v).length = 4 := length_leBytes ..
@[simp] theorem length_putI64 (v : Int64) : (putI64 v).length = 8 := length_leBytes ..
@[simp] theorem length_putError (e : ErrorCode) : (putError e).length = 2 := length_leBytes ..

@[simp] theorem length_putStr (s : String) : (putStr s).length = strSize s := by
  rw [putStr, List.length_append, length_leBytes]
  rfl

@[simp] theorem length_putBytes (b : List UInt8) : (putBytes b).length = 4 + b.length := by
  rw [putBytes, List.length_append, length_leBytes]

@[simp] theorem length_putOptBytes (b : Option (List UInt8)) :
    (putOptBytes b).length = 4 + b.elim 0 List.length := by
  cases b with
  | none => rfl
  | some b => rw [putOptBytes, List.length_append, length_leBytes, Option.elim_some]

theorem length_putVec {α : Type} {put : α → List UInt8} {size : α → ℕ}
    (h : ∀ a, (put a).length = size a) (l : List α) :
    (putVec put l).length = 4 + (l.map size).sum := by
  rw [putVec, List.length_append, length_leBytes, List.length_flatMap]
  exact congrArg (4 + List.sum ·) (List.map_congr_left fun a _ => h a)

@[simp] theorem length_putVec_u32 (l : List UInt32) :
    (putVec putU32 l).length = 4 + 4 * l.length := by
  rw [length_putVec length_putU32, List.map_const', List.sum_replicate_nat, mul_comm]

private theorem length_putPartitionMeta (p : PartitionMeta) : (putPartitionMeta p).length = p.size := by
  simp only [putPartitionMeta, List.length_append, length_putU32, length_putI32, length_putU64,
    length_putVec_u32, PartitionMeta.size]
  omega

private theorem length_putTopicMeta (t : TopicMeta) : (putTopicMeta t).length = t.size := by
  rw [putTopicMeta, List.length_append, length_putStr, length_putVec length_putPartitionMeta,
    TopicMeta.size, add_assoc]

private theorem length_putAddresses (l : List (UInt32 × String)) :
    (putVec putAddress l).length = addressesSize l :=
  length_putVec (fun a => by rw [putAddress, List.length_append, length_putU32, length_putStr]) l

theorem length_putClusterMeta (c : ClusterMeta) : (putClusterMeta c).length = c.size := by
  simp only [putClusterMeta, List.length_append, length_putU64, length_putAddresses,
    length_putVec length_putTopicMeta, ClusterMeta.size]
  omega

private theorem length_putFetchedRecord (r : FetchedRecord) : (putFetchedRecord r).length = r.size := by
  simp only [putFetchedRecord, List.length_append, length_putU64, length_putI64,
    length_putOptBytes, length_putBytes, FetchedRecord.size]
  omega

theorem length_putRecords (l : List FetchedRecord) :
    (putVec putFetchedRecord l).length = recordsSize l :=
  length_putVec length_putFetchedRecord l

private theorem length_putAssignment (l : List (String × UInt32)) :
    (putVec putAssigned l).length = assignmentSize l :=
  length_putVec (fun a => by rw [putAssigned, List.length_append, length_putStr, length_putU32]) l

/-! ## Length fields -/

theorem length_payload (msgType : UInt8) (corr : UInt32) (body : List UInt8) :
    (payload msgType corr body).length = 6 + body.length := by
  simp only [payload, List.length_append, length_putU8, length_putU32]

private theorem lengthAccepted_frame (msgType : UInt8) (corr : UInt32) (body : List UInt8) :
    LengthAccepted (frame msgType corr body) ↔ SizeAccepted (6 + body.length) := by
  have hfield : leValue ((frame msgType corr body).take 4) = (6 + body.length) % 2 ^ 32 := by
    rw [frame_eq, List.take_left' (length_leBytes ..), leValue_leBytes, length_payload,
      show 256 ^ 4 = 2 ^ 32 from rfl]
  rw [LengthAccepted, hfield, SizeAccepted]

theorem encodeResponse_eq_frame (resp : Response) (corr : UInt32) :
    ∃ msgType body, encodeResponse resp corr = frame msgType corr body ∧
      body.length = resp.size := by
  cases resp with
  | createTopic error => exact ⟨_, _, rfl, by simp [Response.size]⟩
  | metadata error cluster =>
    exact ⟨_, _, rfl, by simp [Response.size, length_putClusterMeta]⟩
  | produce error baseOffset count => exact ⟨_, _, rfl, by simp [Response.size]⟩
  | fetch error logStart nextOffset records =>
    refine ⟨_, _, rfl, ?_⟩
    simp only [List.length_append, length_putError, length_putU64, length_putRecords, Response.size]
    omega
  | replicaFetch error leaderEpoch logEnd highWatermark records =>
    refine ⟨_, _, rfl, ?_⟩
    simp only [List.length_append, length_putError, length_putU64, length_putRecords, Response.size]
    omega
  | epochCheck error endOffset => exact ⟨_, _, rfl, by simp [Response.size]⟩
  | registerBroker error version => exact ⟨_, _, rfl, by simp [Response.size]⟩
  | brokerHeartbeat error version => exact ⟨_, _, rfl, by simp [Response.size]⟩
  | alterIsr error version => exact ⟨_, _, rfl, by simp [Response.size]⟩
  | controllerMetadata error cluster =>
    exact ⟨_, _, rfl, by simp [Response.size, length_putClusterMeta]⟩
  | commitOffset error => exact ⟨_, _, rfl, by simp [Response.size]⟩
  | fetchOffset error offset => exact ⟨_, _, rfl, by simp [Response.size]⟩
  | joinGroup error memberId generation assignment =>
    refine ⟨_, _, rfl, ?_⟩
    simp only [List.length_append, length_putError, length_putU64, length_putStr,
      length_putAssignment, Response.size]
    omega
  | heartbeat error => exact ⟨_, _, rfl, by simp [Response.size]⟩
  | leaveGroup error => exact ⟨_, _, rfl, by simp [Response.size]⟩

/-- Whether the receiver takes a response depends on its size alone. -/
theorem lengthAccepted_encodeResponse (resp : Response) (corr : UInt32) :
    LengthAccepted (encodeResponse resp corr) ↔ SizeAccepted (6 + resp.size) := by
  obtain ⟨msgType, body, hframe, hlength⟩ := encodeResponse_eq_frame resp corr
  rw [hframe, lengthAccepted_frame, hlength]

end Replog.Proto
