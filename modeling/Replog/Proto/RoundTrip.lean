import Replog.Proto.Codec

/-!
# Every message comes back from its frame

The two directions of a layout are written separately in the source. Here each is followed field
by field, and the frame is shown to be decodable as a whole only.
-/

namespace Replog.Proto
open Replog.LittleEndian Replog.Library Wire

/-! ## Values that fit their fields -/

def StrFits (s : String) : Prop := s.utf8ByteSize ≤ 65535

/-- The length of a list fits its count, and so do its entries. -/
def VecFits {α : Type} (fits : α → Prop) (l : List α) : Prop :=
  l.length < 2 ^ 32 ∧ ∀ a ∈ l, fits a

instance (s : String) : Decidable (StrFits s) :=
  inferInstanceAs (Decidable (_ ≤ _))

instance {α : Type} (fits : α → Prop) [DecidablePred fits] (l : List α) :
    Decidable (VecFits fits l) :=
  inferInstanceAs (Decidable (_ ∧ _))

/-- A key length is an `i32`, a value length a `u32`. -/
def PayloadFits (key : Option (List UInt8)) (value : List UInt8) : Prop :=
  (∀ k ∈ key, k.length < 2 ^ 31) ∧ value.length < 2 ^ 32

def IdsFit (l : List UInt32) : Prop := VecFits (fun _ => True) l

def PartitionMeta.Fits (p : PartitionMeta) : Prop := IdsFit p.replicas ∧ IdsFit p.isr

def TopicMeta.Fits (t : TopicMeta) : Prop := StrFits t.name ∧ VecFits PartitionMeta.Fits t.partitions

structure ClusterMeta.Fits (c : ClusterMeta) : Prop where
  brokers : VecFits (fun p => StrFits p.2) c.brokers
  peers : VecFits (fun p => StrFits p.2) c.peers
  topics : VecFits TopicMeta.Fits c.topics

def Request.Fits : Request → Prop
  | .createTopic topic _ _ => StrFits topic
  | .metadata => True
  | .produce topic _ _ _ records =>
    StrFits topic ∧ VecFits (fun r => PayloadFits r.key r.value) records
  | .fetch topic _ _ _ _ => StrFits topic
  | .replicaFetch topic _ _ _ _ _ _ => StrFits topic
  | .epochCheck topic _ _ => StrFits topic
  | .registerBroker _ addr peerAddr => StrFits addr ∧ StrFits peerAddr
  | .brokerHeartbeat _ _ => True
  | .alterIsr topic _ _ isr => StrFits topic ∧ IdsFit isr
  | .controllerMetadata => True
  | .commitOffset group topic _ _ memberId _ => StrFits group ∧ StrFits topic ∧ StrFits memberId
  | .fetchOffset group topic _ => StrFits group ∧ StrFits topic
  | .joinGroup group memberId _ topics => StrFits group ∧ StrFits memberId ∧ VecFits StrFits topics
  | .heartbeat group memberId _ => StrFits group ∧ StrFits memberId
  | .leaveGroup group memberId => StrFits group ∧ StrFits memberId

def Response.Fits : Response → Prop
  | .metadata _ cluster => cluster.Fits
  | .controllerMetadata _ cluster => cluster.Fits
  | .fetch _ _ _ records => VecFits (fun r => PayloadFits r.key r.value) records
  | .replicaFetch _ _ _ _ records => VecFits (fun r => PayloadFits r.key r.value) records
  | .joinGroup _ memberId _ assignment =>
    StrFits memberId ∧ VecFits (fun p => StrFits p.1) assignment
  | _ => True

/-! ## Parts of a message -/

theorem reads_error (e : ErrorCode) : readError.Reads (putError e) e :=
  (reads_u16 _).bind_lift (ErrorCode.fromU16_toU16 e)

theorem reads_acks (a : Acks) : readAcks.Reads (putU8 a.toU8) a :=
  (reads_u8 _).bind_lift (Acks.fromU8_toU8 a)

theorem VecFits.reads {α : Type} {fits : α → Prop} {r : Reader α} {put : α → List UInt8} {l : List α}
    (h : VecFits fits l) (hr : ∀ a, fits a → r.Reads (put a) a) : (vec r).Reads (putVec put l) l :=
  reads_vec h.1 fun a ha => hr a (h.2 a ha)

theorem IdsFit.reads {l : List UInt32} (h : IdsFit l) : (vec u32).Reads (putVec putU32 l) l :=
  VecFits.reads h fun id _ => reads_u32 id

theorem reads_address (p : UInt32 × String) (h : StrFits p.2) :
    readAddress.Reads (putAddress p) p :=
  (reads_u32 _).bind (reads_string h).bind_pure

theorem reads_partitionMeta (p : PartitionMeta) (h : p.Fits) :
    readPartitionMeta.Reads (putPartitionMeta p) p :=
  (reads_u32 _).bind ((reads_i32 _).bind ((reads_u64 _).bind (h.1.reads.bind h.2.reads.bind_pure)))

theorem reads_topicMeta (t : TopicMeta) (h : t.Fits) : readTopicMeta.Reads (putTopicMeta t) t :=
  (reads_string h.1).bind (h.2.reads reads_partitionMeta).bind_pure

theorem reads_clusterMeta (c : ClusterMeta) (h : c.Fits) :
    readClusterMeta.Reads (putClusterMeta c) c :=
  (reads_u64 _).bind ((h.brokers.reads reads_address).bind ((h.peers.reads reads_address).bind
    (h.topics.reads reads_topicMeta).bind_pure))

private theorem reads_produceRecord (r : ProduceRecord) (h : PayloadFits r.key r.value) :
    readProduceRecord.Reads (putProduceRecord r) r :=
  (reads_optBytes h.1).bind (reads_bytes h.2).bind_pure

theorem reads_fetchedRecord (r : FetchedRecord) (h : PayloadFits r.key r.value) :
    readFetchedRecord.Reads (putFetchedRecord r) r :=
  (reads_u64 _).bind ((reads_i64 _).bind ((reads_optBytes h.1).bind (reads_bytes h.2).bind_pure))

theorem reads_assigned (p : String × UInt32) (h : StrFits p.1) :
    readAssigned.Reads (putAssigned p) p :=
  (reads_string h).bind (reads_u32 _).bind_pure

/-! ## Frames -/

theorem reads_header (msgType : UInt8) (corr : UInt32) :
    readHeader.Reads (putU8 VERSION ++ (putU8 msgType ++ putU32 corr)) (msgType, corr) := by
  refine (reads_u8 VERSION).bind ?_
  rw [if_neg (by simp)]
  exact (reads_u8 msgType).bind (reads_u32 corr).bind_pure

/-- The bytes behind the length field. -/
def payload (msgType : UInt8) (corr : UInt32) (body : List UInt8) : List UInt8 :=
  putU8 VERSION ++ (putU8 msgType ++ putU32 corr) ++ body

theorem frame_eq (msgType : UInt8) (corr : UInt32) (body : List UInt8) :
    frame msgType corr body =
      leBytes 4 (payload msgType corr body).length ++ payload msgType corr body := by
  have hout : frameHeader msgType corr ++ body = [0, 0, 0, 0] ++ payload msgType corr body := by
    simp only [frameHeader, payload, List.append_assoc]
  have hdrop : ([0, 0, 0, 0] ++ payload msgType corr body).drop 4 = payload msgType corr body := rfl
  have hlen : ([0, 0, 0, 0] ++ payload msgType corr body).length - 4 =
      (payload msgType corr body).length := rfl
  rw [frame, finishFrame, hout, hdrop, hlen]

theorem drop_frame (msgType : UInt8) (corr : UInt32) (body : List UInt8) :
    (frame msgType corr body).drop 4 = payload msgType corr body := by
  rw [frame_eq, List.drop_left' (length_leBytes ..)]

/-- A frame holds one message, and nothing short of it or beyond it decodes. -/
structure Exact {α : Type} (decode : List UInt8 → Except ProtoError (UInt32 × α))
    (frame : List UInt8) (corr : UInt32) (m : α) : Prop where
  decodes : decode (frame.drop 4) = .ok (corr, m)
  length_field : leValue (frame.take 4) = (frame.drop 4).length
  truncated : ∀ p, p <+: frame.drop 4 → p ≠ frame.drop 4 → ∃ e, decode p = .error e
  extended : ∀ extra, extra ≠ [] → ∃ e, decode (frame.drop 4 ++ extra) = .error e

theorem readAll_eq_ok {α : Type} {r : Reader α} {buf : List UInt8} {a : α} :
    readAll r buf = .ok a ↔ r.run buf = .ok (a, []) := by
  rw [readAll]
  split
  · rename_i h
    simp [h]
  · rename_i h
    simp [h]
  · rename_i b rest hne h
    constructor
    · nofun
    · intro hok
      rw [hok] at h
      obtain ⟨-, rfl⟩ := Prod.mk.inj (Except.ok.inj h)
      exact absurd rfl hne

private theorem exists_error {α : Type} {x : Except ProtoError α} (h : ∀ a, x ≠ .ok a) :
    ∃ e, x = .error e := by
  cases x with
  | error e => exact ⟨e, rfl⟩
  | ok a => exact absurd rfl (h a)

theorem reads_payload {α : Type} {read : UInt8 → Reader α} {msgType : UInt8} {body : List UInt8}
    {m : α} (h : (read msgType).Reads body m) (corr : UInt32) :
    Reader.Reads (do
      let (msgType, corr) ← readHeader
      let m ← read msgType
      return (corr, m)) (payload msgType corr body) (corr, m) :=
  (reads_header msgType corr).bind h.bind_pure

theorem decode_payload {α : Type} {read : UInt8 → Reader α} {msgType : UInt8} {body : List UInt8}
    {m : α} (h : (read msgType).Reads body m) (corr : UInt32) :
    decode read (payload msgType corr body) = .ok (corr, m) := by
  have hrun := reads_payload h corr []
  rw [List.append_nil] at hrun
  exact readAll_eq_ok.mpr hrun

/-- It is enough that the reader of a message type undoes the layout of the body. -/
theorem exact_frame {α : Type} {read : UInt8 → Reader α} {msgType : UInt8} {corr : UInt32}
    {body : List UInt8} {m : α} (h : (read msgType).Reads body m)
    (hlen : (frame msgType corr body).length < 2 ^ 32) :
    Exact (decode read) (frame msgType corr body) corr m := by
  rw [frame_eq] at hlen ⊢
  rw [List.length_append, length_leBytes] at hlen
  have hrun := readAll_eq_ok.mp (decode_payload h corr)
  refine ⟨?_, ?_, ?_, ?_⟩
  · rw [List.drop_left' (length_leBytes ..)]
    exact decode_payload h corr
  · rw [List.take_left' (length_leBytes ..), List.drop_left' (length_leBytes ..),
      leValue_leBytes_of_lt (by omega)]
  · intro p hp hne
    rw [List.drop_left' (length_leBytes ..)] at hp hne
    exact exists_error fun v hv =>
      Reader.run_isPrefix_ne hrun hp hne (readAll_eq_ok.mp hv)
  · intro extra hextra
    rw [List.drop_left' (length_leBytes ..)]
    refine exists_error fun v hv => ?_
    have hlong := readAll_eq_ok.mp hv
    rw [reads_payload h corr extra] at hlong
    exact hextra (Prod.mk.inj (Except.ok.inj hlong)).2

/-- Each request is a frame whose body is read back as it was. -/
theorem reads_encodeRequest (req : Request) (h : req.Fits) :
    ∃ msgType body, (∀ corr, encodeRequest req corr = frame msgType corr body) ∧
      (readRequest msgType).Reads body req := by
  cases req with
  | createTopic topic partitions replicationFactor =>
    exact ⟨_, _, fun _ => rfl, (reads_string h).bind ((reads_u32 _).bind (reads_u32 _).bind_pure)⟩
  | metadata => exact ⟨_, _, fun _ => rfl, Reader.Reads.pure _⟩
  | produce topic partition acks leaderEpoch records =>
    exact ⟨_, _, fun _ => rfl, (reads_string h.1).bind ((reads_u32 _).bind ((reads_acks _).bind
      ((reads_u64 _).bind (h.2.reads reads_produceRecord).bind_pure)))⟩
  | fetch topic partition offset maxBytes maxWaitMs =>
    exact ⟨_, _, fun _ => rfl, (reads_string h).bind ((reads_u32 _).bind ((reads_u64 _).bind
      ((reads_u32 _).bind (reads_u32 _).bind_pure)))⟩
  | replicaFetch topic partition followerId leaderEpoch offset maxBytes maxWaitMs =>
    exact ⟨_, _, fun _ => rfl, (reads_string h).bind ((reads_u32 _).bind ((reads_u32 _).bind
      ((reads_u64 _).bind ((reads_u64 _).bind ((reads_u32 _).bind (reads_u32 _).bind_pure)))))⟩
  | epochCheck topic partition epoch =>
    exact ⟨_, _, fun _ => rfl, (reads_string h).bind ((reads_u32 _).bind (reads_u64 _).bind_pure)⟩
  | registerBroker brokerId addr peerAddr =>
    exact ⟨_, _, fun _ => rfl,
      (reads_u32 _).bind ((reads_string h.1).bind (reads_string h.2).bind_pure)⟩
  | brokerHeartbeat brokerId metadataVersion =>
    exact ⟨_, _, fun _ => rfl, (reads_u32 _).bind (reads_u64 _).bind_pure⟩
  | alterIsr topic partition leaderEpoch isr =>
    exact ⟨_, _, fun _ => rfl, (reads_string h.1).bind ((reads_u32 _).bind ((reads_u64 _).bind
      h.2.reads.bind_pure))⟩
  | controllerMetadata => exact ⟨_, _, fun _ => rfl, Reader.Reads.pure _⟩
  | commitOffset group topic partition offset memberId generation =>
    exact ⟨_, _, fun _ => rfl,
      (reads_string h.1).bind ((reads_string h.2.1).bind ((reads_u32 _).bind
      ((reads_u64 _).bind ((reads_string h.2.2).bind (reads_u64 _).bind_pure))))⟩
  | fetchOffset group topic partition =>
    exact ⟨_, _, fun _ => rfl,
      (reads_string h.1).bind ((reads_string h.2).bind (reads_u32 _).bind_pure)⟩
  | joinGroup group memberId sessionTimeoutMs topics =>
    exact ⟨_, _, fun _ => rfl,
      (reads_string h.1).bind ((reads_string h.2.1).bind ((reads_u32 _).bind
      (h.2.2.reads fun _ => reads_string).bind_pure))⟩
  | heartbeat group memberId generation =>
    exact ⟨_, _, fun _ => rfl,
      (reads_string h.1).bind ((reads_string h.2).bind (reads_u64 _).bind_pure)⟩
  | leaveGroup group memberId =>
    exact ⟨_, _, fun _ => rfl, (reads_string h.1).bind (reads_string h.2).bind_pure⟩

theorem exact_encodeRequest (req : Request) (corr : UInt32) (h : req.Fits)
    (hlen : (encodeRequest req corr).length < 2 ^ 32) :
    Exact decodeRequest (encodeRequest req corr) corr req := by
  obtain ⟨msgType, body, hframe, hreads⟩ := reads_encodeRequest req h
  rw [hframe] at hlen ⊢
  exact exact_frame hreads hlen

/-- Each response is a frame whose body is read back as it was. -/
theorem reads_encodeResponse (resp : Response) (h : resp.Fits) :
    ∃ msgType body, (∀ corr, encodeResponse resp corr = frame msgType corr body) ∧
      (readResponse msgType).Reads body resp := by
  cases resp with
  | createTopic error => exact ⟨_, _, fun _ => rfl, (reads_error _).bind_pure⟩
  | metadata error cluster =>
    exact ⟨_, _, fun _ => rfl, (reads_error _).bind (reads_clusterMeta _ h).bind_pure⟩
  | produce error baseOffset count =>
    exact ⟨_, _, fun _ => rfl, (reads_error _).bind ((reads_u64 _).bind (reads_u32 _).bind_pure)⟩
  | fetch error logStart nextOffset records =>
    exact ⟨_, _, fun _ => rfl, (reads_error _).bind ((reads_u64 _).bind ((reads_u64 _).bind
      (VecFits.reads h reads_fetchedRecord).bind_pure))⟩
  | replicaFetch error leaderEpoch logEnd highWatermark records =>
    exact ⟨_, _, fun _ => rfl, (reads_error _).bind ((reads_u64 _).bind ((reads_u64 _).bind
      ((reads_u64 _).bind (VecFits.reads h reads_fetchedRecord).bind_pure)))⟩
  | epochCheck error endOffset =>
    exact ⟨_, _, fun _ => rfl, (reads_error _).bind (reads_u64 _).bind_pure⟩
  | registerBroker error metadataVersion =>
    exact ⟨_, _, fun _ => rfl, (reads_error _).bind (reads_u64 _).bind_pure⟩
  | brokerHeartbeat error metadataVersion =>
    exact ⟨_, _, fun _ => rfl, (reads_error _).bind (reads_u64 _).bind_pure⟩
  | alterIsr error metadataVersion =>
    exact ⟨_, _, fun _ => rfl, (reads_error _).bind (reads_u64 _).bind_pure⟩
  | controllerMetadata error cluster =>
    exact ⟨_, _, fun _ => rfl, (reads_error _).bind (reads_clusterMeta _ h).bind_pure⟩
  | commitOffset error => exact ⟨_, _, fun _ => rfl, (reads_error _).bind_pure⟩
  | fetchOffset error offset =>
    exact ⟨_, _, fun _ => rfl, (reads_error _).bind (reads_i64 _).bind_pure⟩
  | joinGroup error memberId generation assignment =>
    exact ⟨_, _, fun _ => rfl, (reads_error _).bind ((reads_string h.1).bind ((reads_u64 _).bind
      (h.2.reads reads_assigned).bind_pure))⟩
  | heartbeat error => exact ⟨_, _, fun _ => rfl, (reads_error _).bind_pure⟩
  | leaveGroup error => exact ⟨_, _, fun _ => rfl, (reads_error _).bind_pure⟩

private theorem exact_encodeResponse (resp : Response) (corr : UInt32) (h : resp.Fits)
    (hlen : (encodeResponse resp corr).length < 2 ^ 32) :
    Exact decodeResponse (encodeResponse resp corr) corr resp := by
  obtain ⟨msgType, body, hframe, hreads⟩ := reads_encodeResponse resp h
  rw [hframe] at hlen ⊢
  exact exact_frame hreads hlen

/-- Every message of the protocol is the only thing its frame decodes to. -/
theorem frames_exact :
    (∀ (req : Request) (corr : UInt32), req.Fits → (encodeRequest req corr).length < 2 ^ 32 →
      Exact decodeRequest (encodeRequest req corr) corr req) ∧
    (∀ (resp : Response) (corr : UInt32), resp.Fits → (encodeResponse resp corr).length < 2 ^ 32 →
      Exact decodeResponse (encodeResponse resp corr) corr resp) :=
  ⟨exact_encodeRequest, exact_encodeResponse⟩

/-- A heartbeat and an answer with nested lists. -/
theorem frames_exact_heartbeat :
    Exact decodeRequest (encodeRequest (.heartbeat "g" "m-1" 3) 7) 7 (.heartbeat "g" "m-1" 3) ∧
      Exact decodeResponse (encodeResponse (.joinGroup .none "m-1" 3 [("t", 0), ("t", 1)]) 7) 7
        (.joinGroup .none "m-1" 3 [("t", 0), ("t", 1)]) :=
  ⟨frames_exact.1 _ 7 ⟨by decide, by decide⟩ (by decide),
    frames_exact.2 _ 7 ⟨by decide, by decide⟩ (by decide)⟩

end Replog.Proto
