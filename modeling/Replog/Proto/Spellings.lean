import Replog.Proto.RoundTrip

/-!
# What the decoders accept

A decoder accepts the frames of the encoder, and the same frames with another negative length for a
null key. Of these the encoder writes only the one with `-1`.
-/

namespace Replog.Proto
open Replog.LittleEndian Replog.Library Wire

/-! ## Spellings -/

def putProduceRecordAs (r : ProduceRecord) (null : Int32) : List UInt8 :=
  putOptBytesAs null r.key ++ putBytes r.value

def putFetchedRecordAs (r : FetchedRecord) (null : Int32) : List UInt8 :=
  putU64 r.offset ++ (putI64 r.timestampMs ++ (putOptBytesAs null r.key ++ putBytes r.value))

/-- A list whose entries are spelled in one of several ways each. -/
def putVecAs {α γ : Type} (put : α → γ → List UInt8) (l : List α) (cs : List γ) : List UInt8 :=
  leBytes 4 l.length ++ (List.zipWith put l cs).flatten

def Request.keys : Request → List (Option (List UInt8))
  | .produce _ _ _ _ records => records.map ProduceRecord.key
  | _ => []

def Response.keys : Response → List (Option (List UInt8))
  | .fetch _ _ _ records => records.map FetchedRecord.key
  | .replicaFetch _ _ _ _ records => records.map FetchedRecord.key
  | _ => []

/-- The bytes behind the length field, with these lengths for the keys that are null. -/
def Request.spelled (corr : UInt32) (nulls : List Int32) : Request → List UInt8
  | .produce topic partition acks leaderEpoch records =>
    payload MSG_PRODUCE corr (putStr topic ++ (putU32 partition ++ (putU8 acks.toU8 ++
      (putU64 leaderEpoch ++ putVecAs putProduceRecordAs records nulls))))
  | req => (encodeRequest req corr).drop 4

def Response.spelled (corr : UInt32) (nulls : List Int32) : Response → List UInt8
  | .fetch error logStart nextOffset records =>
    payload (MSG_FETCH ||| RESPONSE_BIT) corr (putError error ++ (putU64 logStart ++
      (putU64 nextOffset ++ putVecAs putFetchedRecordAs records nulls)))
  | .replicaFetch error leaderEpoch logEnd highWatermark records =>
    payload (MSG_REPLICA_FETCH ||| RESPONSE_BIT) corr (putError error ++ (putU64 leaderEpoch ++
      (putU64 logEnd ++ (putU64 highWatermark ++ putVecAs putFetchedRecordAs records nulls))))
  | resp => (encodeResponse resp corr).drop 4

/-- One negative length for each key. -/
def NullLengths (keys : List (Option (List UInt8))) (nulls : List Int32) : Prop :=
  nulls.length = keys.length ∧ ∀ null ∈ nulls, null < 0

/-! ## Parts of a message -/

section Accepted

variable {bytes rest : List UInt8}

private theorem ErrorCode.fromU16_eq_ok {v : UInt16} {e : ErrorCode} :
    ErrorCode.fromU16 v = .ok e ↔ v = e.toU16 := by
  constructor
  · intro h
    rw [ErrorCode.fromU16.eq_def] at h
    split at h <;> cases h <;> rfl
  · rintro rfl
    exact ErrorCode.fromU16_toU16 e

private theorem Acks.fromU8_eq_ok {v : UInt8} {a : Acks} : Acks.fromU8 v = .ok a ↔ v = a.toU8 := by
  constructor
  · intro h
    rw [Acks.fromU8.eq_def] at h
    split at h <;> cases h <;> rfl
  · rintro rfl
    exact Acks.fromU8_toU8 a

theorem run_error_eq_ok {e : ErrorCode} :
    readError.run bytes = .ok (e, rest) ↔ bytes = putError e ++ rest := by
  simp only [readError, Reader.run_bind_eq_ok, run_u16_eq_ok, Reader.run_lift_eq_ok,
    ErrorCode.fromU16_eq_ok]
  constructor
  · rintro ⟨_, _, rfl, rfl, rfl⟩
    rfl
  · rintro rfl
    exact ⟨_, _, rfl, rfl, rfl⟩

private theorem run_acks_eq_ok {a : Acks} :
    readAcks.run bytes = .ok (a, rest) ↔ bytes = putU8 a.toU8 ++ rest := by
  simp only [readAcks, Reader.run_bind_eq_ok, run_u8_eq_ok, Reader.run_lift_eq_ok,
    Acks.fromU8_eq_ok]
  constructor
  · rintro ⟨_, _, rfl, rfl, rfl⟩
    rfl
  · rintro rfl
    exact ⟨_, _, rfl, rfl, rfl⟩

theorem run_ids_eq_ok {l : List UInt32} :
    (vec u32).run bytes = .ok (l, rest) ↔ IdsFit l ∧ bytes = putVec putU32 l ++ rest :=
  run_vec_eq_ok (by simp [run_u32_eq_ok])

private theorem run_address_eq_ok {p : UInt32 × String} :
    readAddress.run bytes = .ok (p, rest) ↔ StrFits p.2 ∧ bytes = putAddress p ++ rest := by
  simp only [readAddress, Reader.run_bind_eq_ok, Reader.run_pure_eq_ok, run_u32_eq_ok,
    run_string_eq_ok]
  constructor
  · rintro ⟨id, _, rfl, addr, _, ⟨haddr, rfl⟩, rfl, rfl⟩
    exact ⟨haddr, by rw [putAddress, List.append_assoc]⟩
  · rintro ⟨haddr, rfl⟩
    exact ⟨_, _, List.append_assoc .., _, _, ⟨haddr, rfl⟩, rfl, rfl⟩

private theorem run_partitionMeta_eq_ok {p : PartitionMeta} :
    readPartitionMeta.run bytes = .ok (p, rest) ↔ p.Fits ∧ bytes = putPartitionMeta p ++ rest := by
  constructor
  · intro h
    simp only [readPartitionMeta, Reader.run_bind_eq_ok, Reader.run_pure_eq_ok, run_u32_eq_ok,
      run_i32_eq_ok, run_u64_eq_ok, run_ids_eq_ok] at h
    obtain ⟨partition, _, rfl, leader, _, rfl, leaderEpoch, _, rfl, replicas, _, ⟨hreplicas, rfl⟩,
      isr, _, ⟨hisr, rfl⟩, rfl, rfl⟩ := h
    exact ⟨⟨hreplicas, hisr⟩, by simp only [putPartitionMeta, List.append_assoc]⟩
  · rintro ⟨hfits, rfl⟩
    exact reads_partitionMeta p hfits rest

private theorem run_topicMeta_eq_ok {t : TopicMeta} :
    readTopicMeta.run bytes = .ok (t, rest) ↔ t.Fits ∧ bytes = putTopicMeta t ++ rest := by
  constructor
  · intro h
    simp only [readTopicMeta, Reader.run_bind_eq_ok, Reader.run_pure_eq_ok, run_string_eq_ok,
      run_vec_eq_ok run_partitionMeta_eq_ok] at h
    obtain ⟨name, _, ⟨hname, rfl⟩, partitions, _, ⟨hpartitions, rfl⟩, rfl, rfl⟩ := h
    exact ⟨⟨hname, hpartitions⟩, by simp only [putTopicMeta, List.append_assoc]⟩
  · rintro ⟨hfits, rfl⟩
    exact reads_topicMeta t hfits rest

theorem run_clusterMeta_eq_ok {c : ClusterMeta} :
    readClusterMeta.run bytes = .ok (c, rest) ↔ c.Fits ∧ bytes = putClusterMeta c ++ rest := by
  constructor
  · intro h
    simp only [readClusterMeta, Reader.run_bind_eq_ok, Reader.run_pure_eq_ok, run_u64_eq_ok,
      run_vec_eq_ok run_address_eq_ok, run_vec_eq_ok run_topicMeta_eq_ok] at h
    obtain ⟨version, _, rfl, brokers, _, ⟨hbrokers, rfl⟩, peers, _, ⟨hpeers, rfl⟩, topics, _,
      ⟨htopics, rfl⟩, rfl, rfl⟩ := h
    exact ⟨⟨hbrokers, hpeers, htopics⟩, by simp only [putClusterMeta, List.append_assoc]⟩
  · rintro ⟨hfits, rfl⟩
    exact reads_clusterMeta c hfits rest

private theorem run_assigned_eq_ok {p : String × UInt32} :
    readAssigned.run bytes = .ok (p, rest) ↔ StrFits p.1 ∧ bytes = putAssigned p ++ rest := by
  constructor
  · intro h
    simp only [readAssigned, Reader.run_bind_eq_ok, Reader.run_pure_eq_ok, run_string_eq_ok,
      run_u32_eq_ok] at h
    obtain ⟨topic, _, ⟨htopic, rfl⟩, partition, _, rfl, rfl, rfl⟩ := h
    exact ⟨htopic, by simp only [putAssigned, List.append_assoc]⟩
  · rintro ⟨hfits, rfl⟩
    exact reads_assigned p hfits rest

theorem run_produceRecord_eq_ok {r : ProduceRecord} :
    readProduceRecord.run bytes = .ok (r, rest) ↔ ∃ null : Int32,
      (PayloadFits r.key r.value ∧ null < 0) ∧ bytes = putProduceRecordAs r null ++ rest := by
  simp only [readProduceRecord, Reader.run_bind_eq_ok, Reader.run_pure_eq_ok, run_optBytes_eq_ok,
    run_bytes_eq_ok]
  constructor
  · rintro ⟨key, _, ⟨hkey, null, hnull, rfl⟩, value, _, ⟨hvalue, rfl⟩, rfl, rfl⟩
    exact ⟨null, ⟨⟨hkey, hvalue⟩, hnull⟩, by simp only [putProduceRecordAs, List.append_assoc]⟩
  · rintro ⟨null, ⟨⟨hkey, hvalue⟩, hnull⟩, rfl⟩
    exact ⟨r.key, _, ⟨hkey, null, hnull, List.append_assoc ..⟩, r.value, rest, ⟨hvalue, rfl⟩, rfl,
      rfl⟩

theorem run_fetchedRecord_eq_ok {r : FetchedRecord} :
    readFetchedRecord.run bytes = .ok (r, rest) ↔ ∃ null : Int32,
      (PayloadFits r.key r.value ∧ null < 0) ∧ bytes = putFetchedRecordAs r null ++ rest := by
  simp only [readFetchedRecord, Reader.run_bind_eq_ok, Reader.run_pure_eq_ok, run_u64_eq_ok,
    run_i64_eq_ok, run_optBytes_eq_ok, run_bytes_eq_ok]
  constructor
  · rintro ⟨offset, _, rfl, time, _, rfl, key, _, ⟨hkey, null, hnull, rfl⟩, value, _, ⟨hvalue, rfl⟩,
      rfl, rfl⟩
    exact ⟨null, ⟨⟨hkey, hvalue⟩, hnull⟩, by simp only [putFetchedRecordAs, List.append_assoc]⟩
  · rintro ⟨null, ⟨⟨hkey, hvalue⟩, hnull⟩, rfl⟩
    exact ⟨r.offset, _, by rw [putFetchedRecordAs, List.append_assoc], r.timestampMs, _,
      List.append_assoc .., r.key, _, ⟨hkey, null, hnull, List.append_assoc ..⟩, r.value, rest,
      ⟨hvalue, rfl⟩, rfl, rfl⟩

private theorem forall₂_nulls {α : Type} {fits : α → Prop} {l : List α} {nulls : List Int32} :
    List.Forall₂ (fun a null => fits a ∧ null < 0) l nulls ↔
      (∀ a ∈ l, fits a) ∧ nulls.length = l.length ∧ ∀ null ∈ nulls, null < 0 := by
  induction l generalizing nulls with
  | nil =>
    constructor
    · rintro ⟨⟩
      exact ⟨nofun, rfl, nofun⟩
    · intro h
      rw [List.eq_nil_of_length_eq_zero h.2.1]
      exact .nil
  | cons a l ih =>
    cases nulls with
    | nil =>
      constructor
      · nofun
      · exact fun h => absurd h.2.1 (Nat.zero_ne_add_one _)
    | cons null nulls =>
      rw [List.forall₂_cons, ih, List.forall_mem_cons, List.forall_mem_cons, List.length_cons,
        List.length_cons, Nat.add_right_cancel_iff]
      constructor
      · rintro ⟨⟨ha, hnull⟩, hl, hlen, hnulls⟩
        exact ⟨⟨ha, hl⟩, hlen, hnull, hnulls⟩
      · rintro ⟨⟨ha, hl⟩, hlen, hnull, hnulls⟩
        exact ⟨⟨ha, hnull⟩, hl, hlen, hnulls⟩

theorem run_vecAs_eq_ok {α : Type} {r : Reader α} {fits : α → Prop} {put : α → Int32 → List UInt8}
    (h : ∀ {bytes a rest}, r.run bytes = .ok (a, rest) ↔
      ∃ null : Int32, (fits a ∧ null < 0) ∧ bytes = put a null ++ rest) {l : List α} :
    (vec r).run bytes = .ok (l, rest) ↔ VecFits fits l ∧ ∃ nulls : List Int32,
      (nulls.length = l.length ∧ ∀ null ∈ nulls, null < 0) ∧
        bytes = putVecAs put l nulls ++ rest := by
  simp only [vec, Reader.run_bind_eq_ok, run_u32_eq_ok, Reader.run_replicate_eq_ok h,
    forall₂_nulls]
  constructor
  · rintro ⟨count, _, rfl, hlen, nulls, ⟨hfits, hnulls⟩, rfl⟩
    have hlt := count.toNat_lt
    refine ⟨⟨by omega, hfits⟩, nulls, hnulls, ?_⟩
    rw [putVecAs, hlen, List.append_assoc]
    rfl
  · rintro ⟨⟨hlen, hfits⟩, nulls, hnulls, rfl⟩
    have hcount : (UInt32.ofNat l.length).toNat = l.length := UInt32.toNat_ofNat_of_lt' hlen
    refine ⟨UInt32.ofNat l.length, _, ?_, hcount.symm, nulls, ⟨hfits, hnulls⟩, rfl⟩
    rw [putVecAs, putU32, hcount, List.append_assoc]

end Accepted

/-! ## Messages -/

private theorem run_header_eq_ok {bytes rest : List UInt8} {msgType : UInt8} {corr : UInt32} :
    readHeader.run bytes = .ok ((msgType, corr), rest) ↔
      bytes = putU8 VERSION ++ (putU8 msgType ++ putU32 corr) ++ rest := by
  constructor
  · intro h
    simp only [readHeader, Reader.run_bind_eq_ok, run_u8_eq_ok] at h
    obtain ⟨version, _, rfl, h⟩ := h
    split_ifs at h with hversion
    · cases h
    · rw [ne_eq, not_not] at hversion
      simp only [Reader.run_bind_eq_ok, run_u8_eq_ok, run_u32_eq_ok, Reader.run_pure_eq_ok,
        Prod.mk.injEq] at h
      obtain ⟨_, _, rfl, _, _, rfl, ⟨rfl, rfl⟩, rfl⟩ := h
      rw [hversion]
      simp only [List.append_assoc]
  · rintro rfl
    exact reads_header msgType corr rest

theorem decode_eq_ok {α : Type} {read : UInt8 → Reader α} {buf : List UInt8} {corr : UInt32}
    {m : α} : decode read buf = .ok (corr, m) ↔
      ∃ msgType body, (read msgType).run body = .ok (m, []) ∧ buf = payload msgType corr body := by
  rw [decode, readAll_eq_ok]
  simp only [Reader.run_bind_eq_ok, Reader.run_pure_eq_ok, Prod.mk.injEq, Prod.exists,
    run_header_eq_ok]
  constructor
  · rintro ⟨msgType, _, body, rfl, _, _, hread, ⟨rfl, rfl⟩, rfl⟩
    exact ⟨msgType, body, hread, rfl⟩
  · rintro ⟨msgType, body, hread, rfl⟩
    exact ⟨msgType, corr, body, rfl, m, [], hread, ⟨rfl, rfl⟩, rfl⟩

private theorem readRequest_eq_ok {msgType : UInt8} {bytes rest : List UInt8} {req : Request}
    (h : (readRequest msgType).run bytes = .ok (req, rest)) : req.Fits ∧ ∃ nulls body,
      NullLengths req.keys nulls ∧ (∀ corr, req.spelled corr nulls = payload msgType corr body) ∧
        bytes = body ++ rest := by
  have hnone : NullLengths [] [] := ⟨rfl, nofun⟩
  rw [readRequest] at h
  rw [Reader.run_ite_eq_ok] at h
  rcases h with ⟨rfl, h⟩ | ⟨-, h⟩
  · simp only [Reader.run_bind_eq_ok, Reader.run_pure_eq_ok, run_string_eq_ok, run_u32_eq_ok] at h
    obtain ⟨topic, _, ⟨htopic, rfl⟩, partitions, _, rfl, replicationFactor, _, rfl, rfl, rfl⟩ := h
    exact ⟨htopic, [], _, hnone, fun _ => drop_frame .., by simp only [List.append_assoc]⟩
  rw [Reader.run_ite_eq_ok] at h
  rcases h with ⟨rfl, h⟩ | ⟨-, h⟩
  · simp only [Reader.run_pure_eq_ok] at h
    obtain ⟨rfl, rfl⟩ := h
    exact ⟨trivial, [], [], hnone, fun _ => drop_frame .., rfl⟩
  rw [Reader.run_ite_eq_ok] at h
  rcases h with ⟨rfl, h⟩ | ⟨-, h⟩
  · simp only [Reader.run_bind_eq_ok, Reader.run_pure_eq_ok, run_string_eq_ok, run_u32_eq_ok,
      run_acks_eq_ok, run_u64_eq_ok, run_vecAs_eq_ok run_produceRecord_eq_ok] at h
    obtain ⟨topic, _, ⟨htopic, rfl⟩, partition, _, rfl, acks, _, rfl, leaderEpoch, _, rfl, records, _,
      ⟨hrecords, nulls, ⟨hlen, hnulls⟩, rfl⟩, rfl, rfl⟩ := h
    refine ⟨⟨htopic, hrecords⟩, nulls, _, ⟨?_, hnulls⟩, fun _ => rfl, ?_⟩
    · rw [hlen, Request.keys, List.length_map]
    · simp only [List.append_assoc]
  rw [Reader.run_ite_eq_ok] at h
  rcases h with ⟨rfl, h⟩ | ⟨-, h⟩
  · simp only [Reader.run_bind_eq_ok, Reader.run_pure_eq_ok, run_string_eq_ok, run_u32_eq_ok,
      run_u64_eq_ok] at h
    obtain ⟨topic, _, ⟨htopic, rfl⟩, partition, _, rfl, followerId, _, rfl, leaderEpoch, _, rfl,
      offset, _,
      rfl, maxBytes, _, rfl, maxWaitMs, _, rfl, rfl, rfl⟩ := h
    exact ⟨htopic, [], _, hnone, fun _ => drop_frame .., by simp only [List.append_assoc]⟩
  rw [Reader.run_ite_eq_ok] at h
  rcases h with ⟨rfl, h⟩ | ⟨-, h⟩
  · simp only [Reader.run_bind_eq_ok, Reader.run_pure_eq_ok, run_string_eq_ok, run_u32_eq_ok,
      run_u64_eq_ok] at h
    obtain ⟨topic, _, ⟨htopic, rfl⟩, partition, _, rfl, epoch, _, rfl, rfl, rfl⟩ := h
    exact ⟨htopic, [], _, hnone, fun _ => drop_frame .., by simp only [List.append_assoc]⟩
  rw [Reader.run_ite_eq_ok] at h
  rcases h with ⟨rfl, h⟩ | ⟨-, h⟩
  · simp only [Reader.run_bind_eq_ok, Reader.run_pure_eq_ok, run_u32_eq_ok, run_string_eq_ok] at h
    obtain ⟨brokerId, _, rfl, addr, _, ⟨haddr, rfl⟩, peerAddr, _, ⟨hpeerAddr, rfl⟩, rfl, rfl⟩ := h
    exact ⟨⟨haddr, hpeerAddr⟩, [], _, hnone, fun _ => drop_frame ..,
      by simp only [List.append_assoc]⟩
  rw [Reader.run_ite_eq_ok] at h
  rcases h with ⟨rfl, h⟩ | ⟨-, h⟩
  · simp only [Reader.run_bind_eq_ok, Reader.run_pure_eq_ok, run_u32_eq_ok, run_u64_eq_ok] at h
    obtain ⟨brokerId, _, rfl, metadataVersion, _, rfl, rfl, rfl⟩ := h
    exact ⟨trivial, [], _, hnone, fun _ => drop_frame .., by simp only [List.append_assoc]⟩
  rw [Reader.run_ite_eq_ok] at h
  rcases h with ⟨rfl, h⟩ | ⟨-, h⟩
  · simp only [Reader.run_bind_eq_ok, Reader.run_pure_eq_ok, run_string_eq_ok, run_u32_eq_ok,
      run_u64_eq_ok, run_ids_eq_ok] at h
    obtain ⟨topic, _, ⟨htopic, rfl⟩, partition, _, rfl, leaderEpoch, _, rfl, isr, _, ⟨hisr, rfl⟩, rfl,
      rfl⟩ := h
    exact ⟨⟨htopic, hisr⟩, [], _, hnone, fun _ => drop_frame .., by simp only [List.append_assoc]⟩
  rw [Reader.run_ite_eq_ok] at h
  rcases h with ⟨rfl, h⟩ | ⟨-, h⟩
  · simp only [Reader.run_pure_eq_ok] at h
    obtain ⟨rfl, rfl⟩ := h
    exact ⟨trivial, [], [], hnone, fun _ => drop_frame .., rfl⟩
  rw [Reader.run_ite_eq_ok] at h
  rcases h with ⟨rfl, h⟩ | ⟨-, h⟩
  · simp only [Reader.run_bind_eq_ok, Reader.run_pure_eq_ok, run_string_eq_ok, run_u32_eq_ok,
      run_u64_eq_ok] at h
    obtain ⟨topic, _, ⟨htopic, rfl⟩, partition, _, rfl, offset, _, rfl, maxBytes, _, rfl,
      maxWaitMs, _, rfl,
      rfl, rfl⟩ := h
    exact ⟨htopic, [], _, hnone, fun _ => drop_frame .., by simp only [List.append_assoc]⟩
  rw [Reader.run_ite_eq_ok] at h
  rcases h with ⟨rfl, h⟩ | ⟨-, h⟩
  · simp only [Reader.run_bind_eq_ok, Reader.run_pure_eq_ok, run_string_eq_ok, run_u32_eq_ok,
      run_u64_eq_ok] at h
    obtain ⟨group, _, ⟨hgroup, rfl⟩, topic, _, ⟨htopic, rfl⟩, partition, _, rfl, offset, _, rfl,
      memberId, _,
      ⟨hmember, rfl⟩, generation, _, rfl, rfl, rfl⟩ := h
    exact ⟨⟨hgroup, htopic, hmember⟩, [], _, hnone, fun _ => drop_frame ..,
      by simp only [List.append_assoc]⟩
  rw [Reader.run_ite_eq_ok] at h
  rcases h with ⟨rfl, h⟩ | ⟨-, h⟩
  · simp only [Reader.run_bind_eq_ok, Reader.run_pure_eq_ok, run_string_eq_ok, run_u32_eq_ok] at h
    obtain ⟨group, _, ⟨hgroup, rfl⟩, topic, _, ⟨htopic, rfl⟩, partition, _, rfl, rfl, rfl⟩ := h
    exact ⟨⟨hgroup, htopic⟩, [], _, hnone, fun _ => drop_frame .., by simp only [List.append_assoc]⟩
  rw [Reader.run_ite_eq_ok] at h
  rcases h with ⟨rfl, h⟩ | ⟨-, h⟩
  · simp only [Reader.run_bind_eq_ok, Reader.run_pure_eq_ok, run_string_eq_ok, run_u32_eq_ok,
      run_vec_eq_ok run_string_eq_ok] at h
    obtain ⟨group, _, ⟨hgroup, rfl⟩, memberId, _, ⟨hmember, rfl⟩, sessionTimeoutMs, _, rfl, topics, _,
      ⟨htopics, rfl⟩, rfl, rfl⟩ := h
    exact ⟨⟨hgroup, hmember, htopics⟩, [], _, hnone, fun _ => drop_frame ..,
      by simp only [List.append_assoc]⟩
  rw [Reader.run_ite_eq_ok] at h
  rcases h with ⟨rfl, h⟩ | ⟨-, h⟩
  · simp only [Reader.run_bind_eq_ok, Reader.run_pure_eq_ok, run_string_eq_ok, run_u64_eq_ok] at h
    obtain ⟨group, _, ⟨hgroup, rfl⟩, memberId, _, ⟨hmember, rfl⟩, generation, _, rfl, rfl, rfl⟩ := h
    exact ⟨⟨hgroup, hmember⟩, [], _, hnone, fun _ => drop_frame .., by simp only [List.append_assoc]⟩
  rw [Reader.run_ite_eq_ok] at h
  rcases h with ⟨rfl, h⟩ | ⟨-, h⟩
  · simp only [Reader.run_bind_eq_ok, Reader.run_pure_eq_ok, run_string_eq_ok] at h
    obtain ⟨group, _, ⟨hgroup, rfl⟩, memberId, _, ⟨hmember, rfl⟩, rfl, rfl⟩ := h
    exact ⟨⟨hgroup, hmember⟩, [], _, hnone, fun _ => drop_frame .., by simp only [List.append_assoc]⟩
  cases h

private theorem readResponse_eq_ok {msgType : UInt8} {bytes rest : List UInt8} {resp : Response}
    (h : (readResponse msgType).run bytes = .ok (resp, rest)) : resp.Fits ∧ ∃ nulls body,
      NullLengths resp.keys nulls ∧ (∀ corr, resp.spelled corr nulls = payload msgType corr body) ∧
        bytes = body ++ rest := by
  have hnone : NullLengths [] [] := ⟨rfl, nofun⟩
  rw [readResponse] at h
  rw [Reader.run_ite_eq_ok] at h
  rcases h with ⟨rfl, h⟩ | ⟨-, h⟩
  · simp only [Reader.run_bind_eq_ok, Reader.run_pure_eq_ok, run_error_eq_ok] at h
    obtain ⟨error, _, rfl, rfl, rfl⟩ := h
    exact ⟨trivial, [], _, hnone, fun _ => drop_frame .., rfl⟩
  rw [Reader.run_ite_eq_ok] at h
  rcases h with ⟨rfl, h⟩ | ⟨-, h⟩
  · simp only [Reader.run_bind_eq_ok, Reader.run_pure_eq_ok, run_error_eq_ok,
      run_clusterMeta_eq_ok] at h
    obtain ⟨error, _, rfl, cluster, _, ⟨hcluster, rfl⟩, rfl, rfl⟩ := h
    exact ⟨hcluster, [], _, hnone, fun _ => drop_frame .., by simp only [List.append_assoc]⟩
  rw [Reader.run_ite_eq_ok] at h
  rcases h with ⟨rfl, h⟩ | ⟨-, h⟩
  · simp only [Reader.run_bind_eq_ok, Reader.run_pure_eq_ok, run_error_eq_ok, run_u64_eq_ok,
      run_vecAs_eq_ok run_fetchedRecord_eq_ok] at h
    obtain ⟨error, _, rfl, leaderEpoch, _, rfl, logEnd, _, rfl, highWatermark, _, rfl, records, _,
      ⟨hrecords, nulls, ⟨hlen, hnulls⟩, rfl⟩, rfl, rfl⟩ := h
    refine ⟨hrecords, nulls, _, ⟨?_, hnulls⟩, fun _ => rfl, ?_⟩
    · rw [hlen, Response.keys, List.length_map]
    · simp only [List.append_assoc]
  rw [Reader.run_ite_eq_ok] at h
  rcases h with ⟨rfl, h⟩ | ⟨-, h⟩
  · simp only [Reader.run_bind_eq_ok, Reader.run_pure_eq_ok, run_error_eq_ok, run_u64_eq_ok] at h
    obtain ⟨error, _, rfl, endOffset, _, rfl, rfl, rfl⟩ := h
    exact ⟨trivial, [], _, hnone, fun _ => drop_frame .., by simp only [List.append_assoc]⟩
  rw [Reader.run_ite_eq_ok] at h
  rcases h with ⟨rfl, h⟩ | ⟨-, h⟩
  · simp only [Reader.run_bind_eq_ok, Reader.run_pure_eq_ok, run_error_eq_ok, run_u64_eq_ok] at h
    obtain ⟨error, _, rfl, metadataVersion, _, rfl, rfl, rfl⟩ := h
    exact ⟨trivial, [], _, hnone, fun _ => drop_frame .., by simp only [List.append_assoc]⟩
  rw [Reader.run_ite_eq_ok] at h
  rcases h with ⟨rfl, h⟩ | ⟨-, h⟩
  · simp only [Reader.run_bind_eq_ok, Reader.run_pure_eq_ok, run_error_eq_ok, run_u64_eq_ok] at h
    obtain ⟨error, _, rfl, metadataVersion, _, rfl, rfl, rfl⟩ := h
    exact ⟨trivial, [], _, hnone, fun _ => drop_frame .., by simp only [List.append_assoc]⟩
  rw [Reader.run_ite_eq_ok] at h
  rcases h with ⟨rfl, h⟩ | ⟨-, h⟩
  · simp only [Reader.run_bind_eq_ok, Reader.run_pure_eq_ok, run_error_eq_ok, run_u64_eq_ok] at h
    obtain ⟨error, _, rfl, metadataVersion, _, rfl, rfl, rfl⟩ := h
    exact ⟨trivial, [], _, hnone, fun _ => drop_frame .., by simp only [List.append_assoc]⟩
  rw [Reader.run_ite_eq_ok] at h
  rcases h with ⟨rfl, h⟩ | ⟨-, h⟩
  · simp only [Reader.run_bind_eq_ok, Reader.run_pure_eq_ok, run_error_eq_ok,
      run_clusterMeta_eq_ok] at h
    obtain ⟨error, _, rfl, cluster, _, ⟨hcluster, rfl⟩, rfl, rfl⟩ := h
    exact ⟨hcluster, [], _, hnone, fun _ => drop_frame .., by simp only [List.append_assoc]⟩
  rw [Reader.run_ite_eq_ok] at h
  rcases h with ⟨rfl, h⟩ | ⟨-, h⟩
  · simp only [Reader.run_bind_eq_ok, Reader.run_pure_eq_ok, run_error_eq_ok, run_u64_eq_ok,
      run_u32_eq_ok] at h
    obtain ⟨error, _, rfl, baseOffset, _, rfl, count, _, rfl, rfl, rfl⟩ := h
    exact ⟨trivial, [], _, hnone, fun _ => drop_frame .., by simp only [List.append_assoc]⟩
  rw [Reader.run_ite_eq_ok] at h
  rcases h with ⟨rfl, h⟩ | ⟨-, h⟩
  · simp only [Reader.run_bind_eq_ok, Reader.run_pure_eq_ok, run_error_eq_ok, run_u64_eq_ok,
      run_vecAs_eq_ok run_fetchedRecord_eq_ok] at h
    obtain ⟨error, _, rfl, logStart, _, rfl, nextOffset, _, rfl, records, _,
      ⟨hrecords, nulls, ⟨hlen, hnulls⟩, rfl⟩, rfl, rfl⟩ := h
    refine ⟨hrecords, nulls, _, ⟨?_, hnulls⟩, fun _ => rfl, ?_⟩
    · rw [hlen, Response.keys, List.length_map]
    · simp only [List.append_assoc]
  rw [Reader.run_ite_eq_ok] at h
  rcases h with ⟨rfl, h⟩ | ⟨-, h⟩
  · simp only [Reader.run_bind_eq_ok, Reader.run_pure_eq_ok, run_error_eq_ok] at h
    obtain ⟨error, _, rfl, rfl, rfl⟩ := h
    exact ⟨trivial, [], _, hnone, fun _ => drop_frame .., rfl⟩
  rw [Reader.run_ite_eq_ok] at h
  rcases h with ⟨rfl, h⟩ | ⟨-, h⟩
  · simp only [Reader.run_bind_eq_ok, Reader.run_pure_eq_ok, run_error_eq_ok, run_i64_eq_ok] at h
    obtain ⟨error, _, rfl, offset, _, rfl, rfl, rfl⟩ := h
    exact ⟨trivial, [], _, hnone, fun _ => drop_frame .., by simp only [List.append_assoc]⟩
  rw [Reader.run_ite_eq_ok] at h
  rcases h with ⟨rfl, h⟩ | ⟨-, h⟩
  · simp only [Reader.run_bind_eq_ok, Reader.run_pure_eq_ok, run_error_eq_ok, run_string_eq_ok,
      run_u64_eq_ok, run_vec_eq_ok run_assigned_eq_ok] at h
    obtain ⟨error, _, rfl, memberId, _, ⟨hmember, rfl⟩, generation, _, rfl, assignment, _,
      ⟨hassignment, rfl⟩, rfl, rfl⟩ := h
    exact ⟨⟨hmember, hassignment⟩, [], _, hnone, fun _ => drop_frame ..,
      by simp only [List.append_assoc]⟩
  rw [Reader.run_ite_eq_ok] at h
  rcases h with ⟨rfl, h⟩ | ⟨-, h⟩
  · simp only [Reader.run_bind_eq_ok, Reader.run_pure_eq_ok, run_error_eq_ok] at h
    obtain ⟨error, _, rfl, rfl, rfl⟩ := h
    exact ⟨trivial, [], _, hnone, fun _ => drop_frame .., rfl⟩
  rw [Reader.run_ite_eq_ok] at h
  rcases h with ⟨rfl, h⟩ | ⟨-, h⟩
  · simp only [Reader.run_bind_eq_ok, Reader.run_pure_eq_ok, run_error_eq_ok] at h
    obtain ⟨error, _, rfl, rfl, rfl⟩ := h
    exact ⟨trivial, [], _, hnone, fun _ => drop_frame .., rfl⟩
  cases h

/-! ## Both ways -/

theorem reads_vecAs {α : Type} {r : Reader α} {fits : α → Prop} {put : α → Int32 → List UInt8}
    (h : ∀ {bytes a rest}, r.run bytes = .ok (a, rest) ↔
      ∃ null : Int32, (fits a ∧ null < 0) ∧ bytes = put a null ++ rest) {l : List α}
    (hl : VecFits fits l) {nulls : List Int32} (hlen : nulls.length = l.length)
    (hnulls : ∀ null ∈ nulls, null < 0) : (vec r).Reads (putVecAs put l nulls) l :=
  fun _ => (run_vecAs_eq_ok h).mpr ⟨hl, nulls, ⟨hlen, hnulls⟩, rfl⟩

theorem Request.reads_spelled {req : Request} (h : req.Fits) {nulls : List Int32}
    (hnulls : NullLengths req.keys nulls) : ∃ msgType body,
      (∀ corr, req.spelled corr nulls = payload msgType corr body) ∧
        (readRequest msgType).Reads body req := by
  cases req
  case produce topic partition acks leaderEpoch records =>
    obtain ⟨hlen, hneg⟩ := hnulls
    rw [Request.keys, List.length_map] at hlen
    exact ⟨_, _, fun _ => rfl, (reads_string h.1).bind ((reads_u32 _).bind ((reads_acks _).bind
      ((reads_u64 _).bind (reads_vecAs run_produceRecord_eq_ok h.2 hlen hneg).bind_pure)))⟩
  all_goals
    obtain ⟨msgType, body, hframe, hreads⟩ := reads_encodeRequest _ h
    exact ⟨msgType, body, fun corr =>
      (congrArg (List.drop 4) (hframe corr)).trans (drop_frame ..), hreads⟩

theorem Response.reads_spelled {resp : Response} (h : resp.Fits) {nulls : List Int32}
    (hnulls : NullLengths resp.keys nulls) : ∃ msgType body,
      (∀ corr, resp.spelled corr nulls = payload msgType corr body) ∧
        (readResponse msgType).Reads body resp := by
  cases resp
  case fetch error logStart nextOffset records =>
    obtain ⟨hlen, hneg⟩ := hnulls
    rw [Response.keys, List.length_map] at hlen
    exact ⟨_, _, fun _ => rfl, (reads_error _).bind ((reads_u64 _).bind ((reads_u64 _).bind
      (reads_vecAs run_fetchedRecord_eq_ok h hlen hneg).bind_pure))⟩
  case replicaFetch error leaderEpoch logEnd highWatermark records =>
    obtain ⟨hlen, hneg⟩ := hnulls
    rw [Response.keys, List.length_map] at hlen
    exact ⟨_, _, fun _ => rfl, (reads_error _).bind ((reads_u64 _).bind ((reads_u64 _).bind
      ((reads_u64 _).bind (reads_vecAs run_fetchedRecord_eq_ok h hlen hneg).bind_pure)))⟩
  all_goals
    obtain ⟨msgType, body, hframe, hreads⟩ := reads_encodeResponse _ h
    exact ⟨msgType, body, fun corr =>
      (congrArg (List.drop 4) (hframe corr)).trans (drop_frame ..), hreads⟩

theorem decodeRequest_eq_ok {buf : List UInt8} {corr : UInt32} {req : Request} :
    decodeRequest buf = .ok (corr, req) ↔
      req.Fits ∧ ∃ nulls, NullLengths req.keys nulls ∧ buf = req.spelled corr nulls := by
  constructor
  · intro h
    obtain ⟨msgType, body, hread, rfl⟩ := decode_eq_ok.mp h
    obtain ⟨hfits, nulls, body', hnulls, hspelled, rfl⟩ := readRequest_eq_ok hread
    exact ⟨hfits, nulls, hnulls, by rw [hspelled, List.append_nil]⟩
  · rintro ⟨hfits, nulls, hnulls, rfl⟩
    obtain ⟨msgType, body, hspelled, hreads⟩ := Request.reads_spelled hfits hnulls
    rw [hspelled]
    exact decode_payload hreads corr

private theorem decodeResponse_eq_ok {buf : List UInt8} {corr : UInt32} {resp : Response} :
    decodeResponse buf = .ok (corr, resp) ↔
      resp.Fits ∧ ∃ nulls, NullLengths resp.keys nulls ∧ buf = resp.spelled corr nulls := by
  constructor
  · intro h
    obtain ⟨msgType, body, hread, rfl⟩ := decode_eq_ok.mp h
    obtain ⟨hfits, nulls, body', hnulls, hspelled, rfl⟩ := readResponse_eq_ok hread
    exact ⟨hfits, nulls, hnulls, by rw [hspelled, List.append_nil]⟩
  · rintro ⟨hfits, nulls, hnulls, rfl⟩
    obtain ⟨msgType, body, hspelled, hreads⟩ := Response.reads_spelled hfits hnulls
    rw [hspelled]
    exact decode_payload hreads corr

/-! ## Encoding again -/

/-- The null keys have the length that the encoder writes. -/
def EncoderNulls (keys : List (Option (List UInt8))) (nulls : List Int32) : Prop :=
  ∀ e ∈ keys.zip nulls, e.1 = none → e.2 = -1

instance (keys : List (Option (List UInt8))) (nulls : List Int32) :
    Decidable (EncoderNulls keys nulls) :=
  List.decidableBAll (fun e : Option (List UInt8) × Int32 => e.1 = none → e.2 = -1) _

private theorem putOptBytesAs_eq_iff {b : Option (List UInt8)} {null : Int32} :
    putOptBytes b = putOptBytesAs null b ↔ (b = none → null = -1) := by
  cases b with
  | none =>
    constructor
    · intro h _
      have hread := reads_i32 (-1) []
      change i32.run (putOptBytes none ++ []) = _ at hread
      rw [h] at hread
      exact (Prod.mk.inj (Except.ok.inj ((reads_i32 null []).symm.trans hread))).1
    · intro h
      rw [h rfl]
      rfl
  | some k => exact iff_of_true rfl nofun

private theorem length_putOptBytesAs (null : Int32) (b : Option (List UInt8)) :
    (putOptBytesAs null b).length = (putOptBytes b).length := by
  cases b <;> simp [putOptBytesAs, putOptBytes, putI32]

theorem encoderNulls_nil (nulls : List Int32) : EncoderNulls [] nulls :=
  fun _ he => absurd he List.not_mem_nil

/-- Records whose spellings differ in their keys only. -/
theorem flatMap_eq_zipWith_iff {α : Type} {key : α → Option (List UInt8)} {put : α → List UInt8}
    {putAs : α → Int32 → List UInt8} {before after : α → List UInt8}
    (hput : ∀ a, put a = before a ++ (putOptBytes (key a) ++ after a))
    (hputAs : ∀ a null, putAs a null = before a ++ (putOptBytesAs null (key a) ++ after a))
    {l : List α} {nulls : List Int32} (hlen : nulls.length = l.length) :
    l.flatMap put = (List.zipWith putAs l nulls).flatten ↔ EncoderNulls (l.map key) nulls := by
  induction l generalizing nulls with
  | nil => exact iff_of_true rfl (encoderNulls_nil nulls)
  | cons a l ih =>
    obtain ⟨null, nulls, rfl⟩ := List.exists_cons_of_length_eq_add_one hlen
    have hsize : (put a).length = (putAs a null).length := by
      rw [hput, hputAs]
      simp only [List.length_append, length_putOptBytesAs]
    have hhead : put a = putAs a null ↔ (key a = none → null = -1) := by
      rw [hput, hputAs, List.append_right_inj, List.append_left_inj, putOptBytesAs_eq_iff]
    have hsplit : put a ++ l.flatMap put = putAs a null ++ (List.zipWith putAs l nulls).flatten ↔
        put a = putAs a null ∧ l.flatMap put = (List.zipWith putAs l nulls).flatten :=
      ⟨fun h => List.append_inj h hsize, fun h => congrArg₂ _ h.1 h.2⟩
    rw [List.flatMap_cons, List.zipWith_cons_cons, List.flatten_cons, hsplit, hhead,
      ih (Nat.succ.inj hlen)]
    simp [EncoderNulls]

private theorem putVec_produceRecords_iff {records : List ProduceRecord} {nulls : List Int32}
    (hlen : nulls.length = records.length) :
    putVec putProduceRecord records = putVecAs putProduceRecordAs records nulls ↔
      EncoderNulls (records.map ProduceRecord.key) nulls := by
  rw [putVec, putVecAs, List.append_right_inj]
  exact flatMap_eq_zipWith_iff (fun _ => (List.nil_append _).symm)
    (fun _ _ => (List.nil_append _).symm) hlen

theorem putVec_fetchedRecords_iff {records : List FetchedRecord} {nulls : List Int32}
    (hlen : nulls.length = records.length) :
    putVec putFetchedRecord records = putVecAs putFetchedRecordAs records nulls ↔
      EncoderNulls (records.map FetchedRecord.key) nulls := by
  rw [putVec, putVecAs, List.append_right_inj]
  exact flatMap_eq_zipWith_iff (fun _ => (List.append_assoc ..).symm)
    (fun _ _ => (List.append_assoc ..).symm) hlen

theorem Request.encoded_eq_spelled_iff {req : Request} (corr : UInt32) {nulls : List Int32}
    (hlen : nulls.length = req.keys.length) :
    (encodeRequest req corr).drop 4 = req.spelled corr nulls ↔ EncoderNulls req.keys nulls := by
  cases req
  case produce topic partition acks leaderEpoch records =>
    rw [Request.keys, List.length_map] at hlen
    rw [encodeRequest, drop_frame, Request.spelled, payload, payload]
    simp only [List.append_right_inj, Request.keys, putVec_produceRecords_iff hlen]
  all_goals exact iff_of_true rfl (encoderNulls_nil nulls)

theorem Response.encoded_eq_spelled_iff {resp : Response} (corr : UInt32) {nulls : List Int32}
    (hlen : nulls.length = resp.keys.length) :
    (encodeResponse resp corr).drop 4 = resp.spelled corr nulls ↔ EncoderNulls resp.keys nulls := by
  cases resp
  case fetch error logStart nextOffset records =>
    rw [Response.keys, List.length_map] at hlen
    rw [encodeResponse, drop_frame, Response.spelled, payload, payload]
    simp only [List.append_right_inj, Response.keys, putVec_fetchedRecords_iff hlen]
  case replicaFetch error leaderEpoch logEnd highWatermark records =>
    rw [Response.keys, List.length_map] at hlen
    rw [encodeResponse, drop_frame, Response.spelled, payload, payload]
    simp only [List.append_right_inj, Response.keys, putVec_fetchedRecords_iff hlen]
  all_goals exact iff_of_true rfl (encoderNulls_nil nulls)

/-- A decoder accepts the spellings of the messages that fit, and nothing else, and the encoder
gives back the one that spells null keys its way. -/
theorem decoders_accept_spellings :
    (∀ buf corr req, decodeRequest buf = .ok (corr, req) ↔
      req.Fits ∧ ∃ nulls, NullLengths req.keys nulls ∧ buf = req.spelled corr nulls ∧
        ((encodeRequest req corr).drop 4 = buf ↔ EncoderNulls req.keys nulls)) ∧
    (∀ buf corr resp, decodeResponse buf = .ok (corr, resp) ↔
      resp.Fits ∧ ∃ nulls, NullLengths resp.keys nulls ∧ buf = resp.spelled corr nulls ∧
        ((encodeResponse resp corr).drop 4 = buf ↔ EncoderNulls resp.keys nulls)) := by
  constructor
  · intro buf corr req
    rw [decodeRequest_eq_ok]
    refine and_congr_right fun _ => exists_congr fun nulls => and_congr_right fun hnulls => ?_
    refine (and_iff_left_of_imp fun hbuf => ?_).symm
    rw [hbuf]
    exact Request.encoded_eq_spelled_iff corr hnulls.1
  · intro buf corr resp
    rw [decodeResponse_eq_ok]
    refine and_congr_right fun _ => exists_congr fun nulls => and_congr_right fun hnulls => ?_
    refine (and_iff_left_of_imp fun hbuf => ?_).symm
    rw [hbuf]
    exact Response.encoded_eq_spelled_iff corr hnulls.1

/-- A produce request whose null key has the length `-2` is accepted, and comes back with `-1`. -/
theorem respelled_null : ∃ buf corr req, decodeRequest buf = .ok (corr, req) ∧
    (encodeRequest req corr).drop 4 ≠ buf := by
  have hnulls : NullLengths (Request.keys (.produce "t" 0 .none 0 [⟨none, []⟩])) [-2] :=
    ⟨rfl, List.forall_mem_singleton.mpr (by decide)⟩
  refine ⟨_, 7, .produce "t" 0 .none 0 [⟨none, []⟩],
    decodeRequest_eq_ok.mpr ⟨⟨by decide, by decide, ?_⟩, [-2], hnulls, rfl⟩, ?_⟩
  · simp [PayloadFits]
  · rw [ne_eq, Request.encoded_eq_spelled_iff 7 rfl]
    decide

end Replog.Proto
