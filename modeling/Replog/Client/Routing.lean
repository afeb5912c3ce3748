import Mathlib.Data.List.Flatten
import Replog.Client.Producer

/-!
# The order of the records of a topic

A topic producer splits the records it is handed over the partitions: by the hash of the key, and
in turn without one. Within a partition they are sent in the order they were handed over, whatever
the calls, the batch size and the failures, so the records of a key stay in order.
-/

namespace Replog.Client
open Replog.Library
open Replog.Proto (Acks ClusterMeta ErrorCode ProduceRecord)

/-- The partition of each record, when `turn` records without a key came before. -/
def destinations (partitions : UInt32) : ℕ → List ProduceRecord → List (UInt32 × ProduceRecord)
  | _, [] => []
  | turn, r :: rest =>
    match r.key with
    | some key => (partitionForKey key partitions, r) :: destinations partitions turn rest
    | none => (UInt32.ofNat turn % partitions, r) :: destinations partitions (turn + 1) rest

def share (partition : UInt32) (routed : List (UInt32 × ProduceRecord)) : List ProduceRecord :=
  (routed.filter (·.1 = partition)).map Prod.snd

def keyless (records : List ProduceRecord) : ℕ := records.countP (·.key.isNone)

namespace ProduceConn

variable (conn : ProduceConn) (partition : UInt32)

def batchesTo : List Batch := conn.batches.filter (·.partition = partition)

/-- What was sent to a partition, in order. -/
def sentTo : List ProduceRecord := (conn.batchesTo partition).flatMap Batch.records

def ackedTo : List ProduceRecord :=
  ((conn.batchesTo partition).filter Batch.acked).flatMap Batch.records

end ProduceConn

def TopicProducer.buffered (p : TopicProducer) (partition : UInt32) : List ProduceRecord :=
  (p.buffers[partition.toNat]?).getD []

/-- The records handed over to a topic producer are on their way, partition by partition. -/
structure Routed (topic : String) (partitions : UInt32) (handed : List ProduceRecord)
    (p : TopicProducer) : Prop where
  topic_eq : p.topic = topic
  partitions_eq : p.partitions = partitions
  turn : p.roundRobin = keyless handed
  share : ∀ partition, p.conn.sentTo partition ++ p.buffered partition =
    share partition (destinations partitions 0 handed)
  batches : ∀ b ∈ p.conn.batches, b.topic = topic ∧ b.records ≠ []

section Destinations

variable {partitions : UInt32}

private theorem keyless_concat (records : List ProduceRecord) (r : ProduceRecord) :
    keyless (records ++ [r]) = keyless records + if r.key.isNone then 1 else 0 := by
  simp [keyless, List.countP_append, List.countP_singleton]

private theorem destinations_concat (turn : ℕ) (records : List ProduceRecord) (r : ProduceRecord) :
    destinations partitions turn (records ++ [r]) = destinations partitions turn records ++
      [(r.key.elim (UInt32.ofNat (turn + keyless records) % partitions)
        (partitionForKey · partitions), r)] := by
  induction records generalizing turn with
  | nil =>
    obtain ⟨key, value⟩ := r
    cases key with
    | none => simp [destinations, keyless]
    | some key => simp [destinations]
  | cons first records ih =>
    obtain ⟨key, value⟩ := first
    cases key with
    | none =>
      have hcount : keyless (⟨none, value⟩ :: records) = keyless records + 1 := by simp [keyless]
      simp only [List.cons_append, destinations, ih, hcount]
      rw [Nat.add_assoc, Nat.add_comm 1]
    | some key =>
      have hcount : keyless (⟨some key, value⟩ :: records) = keyless records := by simp [keyless]
      simp only [List.cons_append, destinations, ih, hcount]

theorem share_append (partition : UInt32) (first second : List (UInt32 × ProduceRecord)) :
    share partition (first ++ second) = share partition first ++ share partition second := by
  simp [share, List.filter_append]

theorem share_singleton (partition : UInt32) (d : UInt32 × ProduceRecord) :
    share partition [d] = if d.1 = partition then [d.2] else [] := by
  by_cases h : d.1 = partition <;> simp [share, h]

private theorem share_keyed (key : List UInt8) (turn : ℕ) (records : List ProduceRecord) :
    (share (partitionForKey key partitions) (destinations partitions turn records)).filter
        (·.key = some key) = records.filter (·.key = some key) := by
  induction records generalizing turn with
  | nil => rfl
  | cons r records ih =>
    obtain ⟨rkey, value⟩ := r
    have hcons (d : UInt32 × ProduceRecord) (rest : List (UInt32 × ProduceRecord)) :
        share (partitionForKey key partitions) (d :: rest) =
          share (partitionForKey key partitions) [d] ++
            share (partitionForKey key partitions) rest :=
      share_append _ [d] rest
    cases rkey with
    | none =>
      rw [destinations, hcons, share_singleton, List.filter_append, ih]
      split <;> simp
    | some rkey =>
      rw [destinations, hcons, share_singleton, List.filter_append, ih]
      by_cases hkey : rkey = key
      · subst hkey
        simp
      · split <;> simp [hkey]

end Destinations

namespace TopicProducer

variable {topic : String} {partitions : UInt32} {handed : List ProduceRecord} {p : TopicProducer}

theorem getD_set {buffers : List (List ProduceRecord)} {partition : UInt32}
    {old : List ProduceRecord} (h : buffers[partition.toNat]? = some old)
    (records : List ProduceRecord) (q : UInt32) :
    ((buffers.set partition.toNat records)[q.toNat]?).getD [] =
      if q = partition then records else (buffers[q.toNat]?).getD [] := by
  obtain ⟨hlt, -⟩ := List.getElem?_eq_some_iff.mp h
  by_cases hq : q = partition
  · subst hq
    simp [List.getElem?_set_self hlt]
  · have hne : partition.toNat ≠ q.toNat := fun heq => hq (UInt32.toNat_inj.mp heq.symm)
    rw [List.getElem?_set_ne hne, if_neg hq]

private theorem sentTo_produce (conn : ProduceConn) (topic : String) (partition : UInt32) (acks : Acks)
    (records : List ProduceRecord) (q : UInt32) :
    (conn.produce topic partition acks records).2.sentTo q =
      conn.sentTo q ++ if partition = q then records else [] := by
  by_cases hq : partition = q <;>
    simp [ProduceConn.produce, ProduceConn.sentTo, ProduceConn.batchesTo, List.filter_append, hq]

theorem Routed.flushPartition (h : Routed topic partitions handed p) {partition : UInt32}
    {r : Except ClientError (Option UInt64) × TopicProducer}
    (hflush : p.flushPartition partition = some r) : Routed topic partitions handed r.2 := by
  obtain ⟨records, hrecords, rfl⟩ := Option.map_eq_some_iff.mp hflush
  have hset (q : UInt32) := getD_set hrecords [] q
  dsimp only
  split
  · rename_i hnil
    refine ⟨h.topic_eq, h.partitions_eq, h.turn, fun q => ?_, h.batches⟩
    rw [← h.share q]
    simp only [buffered, hset]
    split
    · rename_i hq
      rw [hq, hrecords, hnil]
      rfl
    · rfl
  · rename_i hne
    refine ⟨h.topic_eq, h.partitions_eq, h.turn, fun q => ?_, fun b hb => ?_⟩
    · rw [← h.share q]
      simp only [buffered, hset, sentTo_produce]
      by_cases hq : q = partition
      · subst hq
        simp [hrecords]
      · have hq' : partition ≠ q := fun heq => hq heq.symm
        simp [hq, hq']
    · rcases List.mem_append.mp hb with hb | hb
      · exact h.batches b hb
      · rw [List.mem_singleton.mp hb]
        exact ⟨h.topic_eq, hne⟩

theorem Routed.flushFrom {rest : List UInt32} {out : List (UInt32 × UInt64)}
    (h : Routed topic partitions handed p)
    {r : Except ClientError (List (UInt32 × UInt64)) × TopicProducer}
    (hflush : p.flushFrom rest out = some r) : Routed topic partitions handed r.2 := by
  induction rest generalizing p out with
  | nil =>
    cases hflush
    exact h
  | cons partition rest ih =>
    rw [TopicProducer.flushFrom] at hflush
    split at hflush
    · cases hflush
    · rename_i hfirst
      cases hflush
      exact Routed.flushPartition h hfirst
    · rename_i hfirst
      exact ih (Routed.flushPartition h hfirst) hflush
    · rename_i hfirst
      exact ih (Routed.flushPartition h hfirst) hflush

private theorem route_destination {key : Option (List UInt8)} {partition : UInt32} {p' : TopicProducer}
    (hroute : p.route key = some (partition, p')) :
    partition = key.elim (UInt32.ofNat p.roundRobin % p.partitions)
        (partitionForKey · p.partitions) ∧
      p' = { p with roundRobin := p.roundRobin + if key.isNone then 1 else 0 } := by
  rw [route.eq_def] at hroute
  split_ifs at hroute
  cases key with
  | none =>
    cases hroute
    exact ⟨rfl, rfl⟩
  | some key =>
    cases hroute
    exact ⟨rfl, rfl⟩

/-- A record is put at the end of the buffer of its destination. -/
theorem Routed.push (h : Routed topic partitions handed p) {key : Option (List UInt8)}
    {value : List UInt8} {partition : UInt32} {p' : TopicProducer}
    (hroute : p.route key = some (partition, p')) {records : List ProduceRecord}
    (hrecords : p'.buffers[partition.toNat]? = some records) :
    Routed topic partitions (handed ++ [⟨key, value⟩])
      { p' with buffers := p'.buffers.set partition.toNat (records ++ [⟨key, value⟩]) } := by
  obtain ⟨hpartition, rfl⟩ := route_destination hroute
  have hset (q : UInt32) := getD_set hrecords (records ++ [⟨key, value⟩]) q
  refine ⟨h.topic_eq, h.partitions_eq, ?_, fun q => ?_, h.batches⟩
  · rw [keyless_concat, ← h.turn]
  · have hlast : partition = key.elim (UInt32.ofNat (0 + keyless handed) % partitions)
        (partitionForKey · partitions) := by
      rw [hpartition, h.partitions_eq, h.turn, Nat.zero_add]
    rw [destinations_concat, share_append, share_singleton, ← hlast, ← h.share q]
    simp only [buffered, hset]
    by_cases hq : q = partition
    · subst hq
      simp [hrecords]
    · have hq' : partition ≠ q := fun heq => hq heq.symm
      simp [hq, hq']

theorem Routed.send (h : Routed topic partitions handed p) {key : Option (List UInt8)}
    {value : List UInt8} {r : Except ClientError (Option (UInt32 × UInt64)) × TopicProducer}
    (hsend : p.send key value = some r) :
    Routed topic partitions (handed ++ [⟨key, value⟩]) r.2 := by
  rw [TopicProducer.send] at hsend
  split at hsend
  · cases hsend
  · rename_i partition p' hroute
    split at hsend
    · cases hsend
    · rename_i records hrecords
      have hpushed : Routed topic partitions (handed ++ [⟨key, value⟩]) { p' with
          buffers := p'.buffers.set partition.toNat (records ++ [⟨key, value⟩]) } :=
        Routed.push h hroute hrecords
      dsimp only at hsend
      split at hsend
      · obtain ⟨r', hflush, rfl⟩ := Option.map_eq_some_iff.mp hsend
        exact Routed.flushPartition hpushed hflush
      · cases hsend
        exact hpushed

private theorem routed_step {s s' : Handing TopicProducer} {call : TopicProducerCall}
    (h : Routed topic partitions s.handed s.producer) (hstep : step s call = some s') :
    Routed topic partitions s'.handed s'.producer := by
  cases call with
  | send key value =>
    obtain ⟨r, hsend, rfl⟩ := Option.map_eq_some_iff.mp hstep
    exact Routed.send h hsend
  | flushPartition partition =>
    obtain ⟨r, hflush, rfl⟩ := Option.map_eq_some_iff.mp hstep
    exact Routed.flushPartition h hflush
  | flush =>
    obtain ⟨r, hflush, rfl⟩ := Option.map_eq_some_iff.mp hstep
    exact Routed.flushFrom h hflush

private theorem routed_new {outcomes : ℕ → Except ClientError UInt64}
    {cluster : Except ClientError ClusterMeta} {acks : Acks} {batchRecords : ℕ}
    (hnew : new (.start outcomes) cluster topic acks batchRecords = .ok p) :
    Routed topic p.partitions [] p := by
  rw [new.eq_def] at hnew
  split at hnew
  · cases hnew
  · split at hnew
    · cases hnew
    · cases hnew
      refine ⟨rfl, rfl, rfl, fun q => ?_, fun _ hb => absurd hb List.not_mem_nil⟩
      simp [buffered, ProduceConn.start, ProduceConn.sentTo, ProduceConn.batchesTo, share,
        destinations, List.getElem?_replicate]
      split <;> rfl

end TopicProducer

private theorem sublist_ackedTo (conn : ProduceConn) (partition : UInt32) :
    (conn.ackedTo partition).Sublist (conn.sentTo partition) :=
  List.Sublist.flatMap List.filter_sublist _

private theorem mem_share {partition : UInt32} {routed : List (UInt32 × ProduceRecord)}
    {r : ProduceRecord} (h : r ∈ share partition routed) : (partition, r) ∈ routed := by
  obtain ⟨⟨q, r'⟩, hmem, rfl⟩ := List.mem_map.mp h
  obtain ⟨hmem, hq⟩ := List.mem_filter.mp hmem
  rwa [← of_decide_eq_true hq]

private theorem destination_keyed {partitions : UInt32} {turn : ℕ} {records : List ProduceRecord}
    {d : UInt32 × ProduceRecord} (h : d ∈ destinations partitions turn records)
    {key : List UInt8} (hkey : d.2.key = some key) : d.1 = partitionForKey key partitions := by
  induction records generalizing turn with
  | nil => cases h
  | cons r records ih =>
    rw [destinations] at h
    split at h
    · rename_i key' hkey'
      rcases List.mem_cons.mp h with rfl | h
      · rw [Option.some.inj (hkey'.symm.trans hkey)]
      · exact ih h
    · rename_i hnone
      rcases List.mem_cons.mp h with rfl | h
      · cases hnone.symm.trans hkey
      · exact ih h

/-- Whatever is sent and flushed, and whichever requests fail, what was sent to a partition and
what is buffered for it are the records that belong there, in the order they were handed over. So
are all the records of a key, and what is acknowledged keeps that order. -/
theorem topic_in_order (outcomes : ℕ → Except ClientError UInt64)
    (cluster : Except ClientError ClusterMeta) (topic : String) (acks : Acks) (batchRecords : ℕ)
    {p : TopicProducer}
    (hnew : TopicProducer.new (.start outcomes) cluster topic acks batchRecords = .ok p)
    {s : Handing TopicProducer}
    (hreach : Reach TopicProducer.step AnyCall { handed := [], producer := p } s) :
    (∀ partition, s.producer.conn.sentTo partition ++ s.producer.buffered partition =
      share partition (destinations p.partitions 0 s.handed)) ∧
    (∀ key, (s.producer.conn.sentTo (partitionForKey key p.partitions) ++
      s.producer.buffered (partitionForKey key p.partitions)).filter (·.key = some key) =
        s.handed.filter (·.key = some key)) ∧
    (∀ b ∈ s.producer.conn.batches, b.topic = topic ∧ b.records ≠ [] ∧ ∀ r ∈ b.records,
      ∀ key, r.key = some key → b.partition = partitionForKey key p.partitions) ∧
    ∀ partition, (s.producer.conn.ackedTo partition).Sublist
      (share partition (destinations p.partitions 0 s.handed)) := by
  have hinv : Routed topic p.partitions s.handed s.producer :=
    hreach.invariant (P := fun s => Routed topic p.partitions s.handed s.producer)
      (TopicProducer.routed_new hnew) fun _ _ _ h _ hstep => TopicProducer.routed_step h hstep
  refine ⟨hinv.share, fun key => ?_, fun b hb => ?_, fun partition => ?_⟩
  · rw [hinv.share, share_keyed]
  · obtain ⟨htopic, hne⟩ := hinv.batches b hb
    refine ⟨htopic, hne, fun r hr key hkey => ?_⟩
    have hsent : r ∈ s.producer.conn.sentTo b.partition :=
      List.mem_flatMap.mpr ⟨b, List.mem_filter.mpr ⟨hb, decide_eq_true rfl⟩, hr⟩
    have hshare : r ∈ share b.partition (destinations p.partitions 0 s.handed) := by
      rw [← hinv.share]
      exact List.mem_append_left _ hsent
    exact destination_keyed (mem_share hshare) hkey
  · rw [← hinv.share]
    exact (sublist_ackedTo _ _).trans (List.sublist_append_left _ _)

def offlinePartition : Proto.PartitionMeta := ⟨0, -1, 0, [], []⟩

def twoPartitions : ClusterMeta := ⟨1, [], [], [⟨"t", [offlinePartition, offlinePartition]⟩]⟩

/-- One key and no key in turn; the second request fails. -/
theorem topic_in_order_alternating : ∃ p s,
    TopicProducer.new (.start firstOnly) (.ok twoPartitions) "t" .written 2 = .ok p ∧
      Reach TopicProducer.step AnyCall { handed := [], producer := p } s ∧
      (s.handed.length = 5 ∧ s.producer.conn.batches.length = 2) ∧
      ∀ partition, s.producer.conn.sentTo partition ++ s.producer.buffered partition =
        share partition (destinations p.partitions 0 s.handed) := by
  obtain ⟨p, hnew⟩ : ∃ p, p = (⟨.start firstOnly, "t", 2, .written, 2, [[], []], 0⟩ :
    TopicProducer) := ⟨_, rfl⟩
  obtain ⟨s, hreach, hlengths⟩ := Reach.exists_of_runSteps TopicProducer.step AnyCall
    { handed := [], producer := p }
    [.send (some [7]) [1], .send none [2], .send (some [7]) [3], .send none [4],
      .send (some [7]) [5]]
    (fun s => s.handed.length = 5 ∧ s.producer.conn.batches.length = 2)
    (by rw [hnew]; decide +kernel)
  have hstart : TopicProducer.new (.start firstOnly) (.ok twoPartitions) "t" .written 2 = .ok p :=
    hnew ▸ rfl
  exact ⟨p, s, hstart, hreach, hlengths,
    (topic_in_order firstOnly (.ok twoPartitions) "t" .written 2 hstart hreach).1⟩

end Replog.Client
