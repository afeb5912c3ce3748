import Replog.Library.Crc32
import Replog.Library.Transition
import Replog.Proto.Message
import Mathlib.Data.List.Perm.Subperm

/-!
# Producers

Records are buffered and shipped in batches. The buffer is emptied before the request is made, so
a batch whose request fails is neither acknowledged nor buffered any more.
-/

namespace Replog.Client
open Replog.Library
open Replog.Proto (Acks ClusterMeta ErrorCode ProduceRecord)

inductive ClientError where
  | io
  | closed
  | proto
  | broker (error : ErrorCode)
  | unexpectedResponse
  deriving DecidableEq

/-- A produce request and what came of it. -/
structure Batch where
  topic : String
  partition : UInt32
  records : List ProduceRecord
  outcome : Except ClientError UInt64

def Batch.acked (b : Batch) : Bool :=
  match b.outcome with
  | .ok _ => true
  | .error _ => false

/-- A connection as producers use it. What comes of the requests on it is up to the broker. -/
structure ProduceConn where
  outcomes : ℕ → Except ClientError UInt64
  batches : List Batch

namespace ProduceConn

def start (outcomes : ℕ → Except ClientError UInt64) : ProduceConn := { outcomes, batches := [] }

/-- The base offset of the batch, or `none` without acks. -/
def produce (conn : ProduceConn) (topic : String) (partition : UInt32) (acks : Acks)
    (records : List ProduceRecord) : Except ClientError (Option UInt64) × ProduceConn :=
  let outcome := conn.outcomes conn.batches.length
  (outcome.map fun base => if acks = .none then none else some base,
    { conn with batches := conn.batches ++ [{ topic, partition, records, outcome }] })

def sent (conn : ProduceConn) : List ProduceRecord := conn.batches.flatMap Batch.records

/-- What is contained in a batch that was acknowledged. -/
def acked (conn : ProduceConn) : List ProduceRecord :=
  (conn.batches.filter Batch.acked).flatMap Batch.records

end ProduceConn

/-! ## One partition -/

structure Producer where
  conn : ProduceConn
  topic : String
  partition : UInt32
  acks : Acks
  batchRecords : ℕ
  buf : List ProduceRecord

namespace Producer

def new (conn : ProduceConn) (topic : String) (partition : UInt32) (acks : Acks)
    (batchRecords : ℕ) : Producer :=
  { conn, topic, partition, acks, batchRecords := max batchRecords 1, buf := [] }

def flush (p : Producer) : Except ClientError (Option UInt64) × Producer :=
  if p.buf = [] then (.ok none, p)
  else
    let r := p.conn.produce p.topic p.partition p.acks p.buf
    (r.1, { p with buf := [], conn := r.2 })

def send (p : Producer) (key : Option (List UInt8)) (value : List UInt8) :
    Except ClientError (Option UInt64) × Producer :=
  let p' := { p with buf := p.buf ++ [{ key, value }] }
  if p.batchRecords ≤ p'.buf.length then p'.flush else (.ok none, p')

end Producer

/-! ## All partitions of a topic -/

def partitionForKey (key : List UInt8) (partitions : UInt32) : UInt32 :=
  Crc32.crc32 key % partitions

structure TopicProducer where
  conn : ProduceConn
  topic : String
  partitions : UInt32
  acks : Acks
  batchRecords : ℕ
  buffers : List (List ProduceRecord)
  roundRobin : ℕ

namespace TopicProducer

/-- With the answer to the metadata request. -/
def new (conn : ProduceConn) (cluster : Except ClientError ClusterMeta) (topic : String)
    (acks : Acks) (batchRecords : ℕ) : Except ClientError TopicProducer :=
  match cluster with
  | .error e => .error e
  | .ok cluster =>
    match cluster.topics.find? fun t => t.name = topic with
    | none => .error (.broker .unknownTopicOrPartition)
    | some t =>
      let partitions := UInt32.ofNat t.partitions.length
      .ok { conn, topic, partitions, acks, batchRecords := max batchRecords 1,
            buffers := List.replicate partitions.toNat [], roundRobin := 0 }

/-- By the hash of the key, and in turn without one. Here and below the code panics where this is
`none`. -/
def route (p : TopicProducer) (key : Option (List UInt8)) : Option (UInt32 × TopicProducer) :=
  if p.partitions = 0 then none
  else
    match key with
    | some k => some (partitionForKey k p.partitions, p)
    | none =>
      some (UInt32.ofNat p.roundRobin % p.partitions, { p with roundRobin := p.roundRobin + 1 })

def flushPartition (p : TopicProducer) (partition : UInt32) :
    Option (Except ClientError (Option UInt64) × TopicProducer) :=
  p.buffers[partition.toNat]?.map fun records =>
    let p' := { p with buffers := p.buffers.set partition.toNat [] }
    if records = [] then (.ok none, p')
    else
      let r := p.conn.produce p.topic partition p.acks records
      (r.1, { p' with conn := r.2 })

def send (p : TopicProducer) (key : Option (List UInt8)) (value : List UInt8) :
    Option (Except ClientError (Option (UInt32 × UInt64)) × TopicProducer) :=
  match p.route key with
  | none => none
  | some (partition, p) =>
    match p.buffers[partition.toNat]? with
    | none => none
    | some records =>
      let records' := records ++ [{ key, value }]
      let p' := { p with buffers := p.buffers.set partition.toNat records' }
      if p.batchRecords ≤ records'.length then
        (p'.flushPartition partition).map fun r =>
          (r.1.map fun base => base.map fun b => (partition, b), r.2)
      else some (.ok none, p')

def flushFrom : List UInt32 → List (UInt32 × UInt64) → TopicProducer →
    Option (Except ClientError (List (UInt32 × UInt64)) × TopicProducer)
  | [], out, p => some (.ok out, p)
  | partition :: rest, out, p =>
    match p.flushPartition partition with
    | none => none
    | some (.error e, p') => some (.error e, p')
    | some (.ok none, p') => flushFrom rest out p'
    | some (.ok (some base), p') => flushFrom rest (out ++ [(partition, base)]) p'

def flush (p : TopicProducer) :
    Option (Except ClientError (List (UInt32 × UInt64)) × TopicProducer) :=
  p.flushFrom ((List.range p.partitions.toNat).map UInt32.ofNat) []

end TopicProducer

/-! ## Runs -/

inductive ProducerCall where
  | send (key : Option (List UInt8)) (value : List UInt8)
  | flush

inductive TopicProducerCall where
  | send (key : Option (List UInt8)) (value : List UInt8)
  | flushPartition (partition : UInt32)
  | flush

/-- A producer with the records it was handed, of whichever kind it is. -/
structure Handing (α : Type) where
  handed : List ProduceRecord
  producer : α

def AnyCall {σ ι : Type} (_ : σ) (_ : ι) : Prop := True

instance {σ ι : Type} (s : σ) (i : ι) : Decidable (AnyCall s i) :=
  inferInstanceAs (Decidable True)

def Producer.step (s : Handing Producer) : ProducerCall → Option (Handing Producer)
  | .send key value =>
    some { handed := s.handed ++ [{ key, value }], producer := (s.producer.send key value).2 }
  | .flush => some { s with producer := s.producer.flush.2 }

def TopicProducer.step (s : Handing TopicProducer) :
    TopicProducerCall → Option (Handing TopicProducer)
  | .send key value => (s.producer.send key value).map fun r =>
      { handed := s.handed ++ [{ key, value }], producer := r.2 }
  | .flushPartition partition =>
    (s.producer.flushPartition partition).map fun r => { s with producer := r.2 }
  | .flush => s.producer.flush.map fun r => { s with producer := r.2 }

/-! ## The account of the records -/

/-- Every record handed over was sent or is buffered, and no request was empty. -/
structure Accounts (handed : List ProduceRecord) (conn : ProduceConn)
    (buffered : List ProduceRecord) : Prop where
  perm : handed.Perm (conn.sent ++ buffered)
  nonempty : ∀ b ∈ conn.batches, b.records ≠ []

/-- Every record handed over was acknowledged or is buffered. -/
def Conserves (handed : List ProduceRecord) (conn : ProduceConn)
    (buffered : List ProduceRecord) : Prop :=
  handed.Subperm (conn.acked ++ buffered)

/-- The broker acknowledged every request. -/
def ProduceConn.AllAcked (conn : ProduceConn) : Prop := ∀ b ∈ conn.batches, b.acked = true

instance (conn : ProduceConn) : Decidable conn.AllAcked :=
  inferInstanceAs (Decidable (∀ b ∈ conn.batches, b.acked = true))

section Accounts

variable {handed buffered : List ProduceRecord} {conn : ProduceConn}

theorem length_flatMap_filter_le (batches : List Batch) :
    ((batches.filter Batch.acked).flatMap Batch.records).length ≤
      (batches.flatMap Batch.records).length := by
  induction batches with
  | nil => exact le_rfl
  | cons b batches ih =>
    rw [List.flatMap_cons, List.length_append, List.filter_cons]
    split
    · rw [List.flatMap_cons, List.length_append]
      omega
    · omega

private theorem length_acked_lt {batches : List Batch} {b : Batch} (hmem : b ∈ batches)
    (hfailed : b.acked = false) (hne : b.records ≠ []) :
    ((batches.filter Batch.acked).flatMap Batch.records).length <
      (batches.flatMap Batch.records).length := by
  obtain ⟨front, back, rfl⟩ := List.append_of_mem hmem
  have hfront := length_flatMap_filter_le front
  have hback := length_flatMap_filter_le back
  have hpos := List.length_pos_of_ne_nil hne
  rw [List.filter_append, List.filter_cons_of_neg (by simp [hfailed])]
  simp only [List.flatMap_append, List.flatMap_cons, List.length_append]
  omega

theorem Accounts.conserves (h : Accounts handed conn buffered) :
    Conserves handed conn buffered ↔ conn.AllAcked := by
  constructor
  · intro hsub b hb
    by_contra hfailed
    have hlt := length_acked_lt hb (Bool.eq_false_of_not_eq_true hfailed) (h.nonempty b hb)
    have hle := hsub.length_le
    have heq := h.perm.length_eq
    rw [List.length_append] at hle heq
    rw [ProduceConn.acked] at hle
    rw [ProduceConn.sent] at heq
    omega
  · intro hall
    have hacked : conn.acked = conn.sent := by
      rw [ProduceConn.acked, ProduceConn.sent, List.filter_eq_self.mpr hall]
    rw [Conserves, hacked]
    exact h.perm.subperm

theorem accounts_start (outcomes : ℕ → Except ClientError UInt64) :
    Accounts [] (ProduceConn.start outcomes) [] := ⟨.refl _, nofun⟩

theorem Accounts.push (h : Accounts handed conn buffered) (r : ProduceRecord) :
    Accounts (handed ++ [r]) conn (buffered ++ [r]) := by
  refine ⟨?_, h.nonempty⟩
  rw [← List.append_assoc]
  exact h.perm.append_right [r]

theorem Accounts.of_perm (h : Accounts handed conn buffered) {buffered' : List ProduceRecord}
    (hperm : buffered.Perm buffered') : Accounts handed conn buffered' :=
  ⟨h.perm.trans (hperm.append_left _), h.nonempty⟩

/-- A request moves records from the buffers to what was sent. -/
theorem Accounts.produce {records : List ProduceRecord}
    (h : Accounts handed conn (records ++ buffered)) (hne : records ≠ []) (topic : String)
    (partition : UInt32) (acks : Acks) :
    Accounts handed (conn.produce topic partition acks records).2 buffered := by
  constructor
  · have hsent : (conn.produce topic partition acks records).2.sent = conn.sent ++ records := by
      simp [ProduceConn.produce, ProduceConn.sent]
    rw [hsent, List.append_assoc]
    exact h.perm
  · intro b hb
    rcases List.mem_append.mp hb with hb | hb
    · exact h.nonempty b hb
    · rw [List.mem_singleton.mp hb]
      exact hne

end Accounts

namespace Producer

theorem Accounts.flush {handed : List ProduceRecord} {p : Producer}
    (h : Accounts handed p.conn p.buf) : Accounts handed p.flush.2.conn p.flush.2.buf := by
  rw [Producer.flush]
  split
  · exact h
  · rename_i hne
    rw [← List.append_nil p.buf] at h
    exact h.produce hne p.topic p.partition p.acks

theorem accounts_step {s s' : Handing Producer} {call : ProducerCall}
    (h : Accounts s.handed s.producer.conn s.producer.buf) (hstep : step s call = some s') :
    Accounts s'.handed s'.producer.conn s'.producer.buf := by
  cases call with
  | send key value =>
    cases hstep
    have hpush := h.push { key, value }
    rw [send]
    dsimp only
    split
    · exact Accounts.flush hpush
    · exact hpush
  | flush =>
    cases hstep
    exact Accounts.flush h

end Producer

/-- Replacing one buffer exchanges its records. -/
theorem flatten_set_perm {buffers : List (List ProduceRecord)} {k : ℕ}
    {records : List ProduceRecord} (hk : buffers[k]? = some records)
    (records' : List ProduceRecord) :
    (records ++ (buffers.set k records').flatten).Perm (records' ++ buffers.flatten) := by
  obtain ⟨hlt, rfl⟩ := List.getElem?_eq_some_iff.mp hk
  have hflatten : buffers.flatten =
      (buffers.take k).flatten ++ (buffers[k] ++ (buffers.drop (k + 1)).flatten) := by
    conv_lhs => rw [← List.take_append_drop k buffers, ← List.cons_getElem_drop_succ (h := hlt)]
    rw [List.flatten_append, List.flatten_cons]
  have hset : (buffers.set k records').flatten =
      (buffers.take k).flatten ++ (records' ++ (buffers.drop (k + 1)).flatten) := by
    rw [List.set_eq_take_append_cons_drop, if_pos hlt, List.flatten_append, List.flatten_cons]
  rw [hset, hflatten]
  refine (List.perm_append_comm_assoc buffers[k] _ _).trans ?_
  refine List.Perm.trans ?_ (List.perm_append_comm_assoc _ records' _)
  exact (List.perm_append_comm_assoc buffers[k] records' _).append_left _

namespace TopicProducer

variable {handed : List ProduceRecord} {p : TopicProducer}

theorem Accounts.flushPartition (h : Accounts handed p.conn p.buffers.flatten)
    {partition : UInt32} {r : Except ClientError (Option UInt64) × TopicProducer}
    (hflush : p.flushPartition partition = some r) :
    Accounts handed r.2.conn r.2.buffers.flatten := by
  obtain ⟨records, hrecords, rfl⟩ := Option.map_eq_some_iff.mp hflush
  have htaken := h.of_perm (flatten_set_perm hrecords []).symm
  dsimp only
  split
  · rename_i hnil
    rwa [hnil] at htaken
  · rename_i hne
    exact htaken.produce hne p.topic partition p.acks

theorem Accounts.flushFrom {partitions : List UInt32} {out : List (UInt32 × UInt64)}
    (h : Accounts handed p.conn p.buffers.flatten)
    {r : Except ClientError (List (UInt32 × UInt64)) × TopicProducer}
    (hflush : p.flushFrom partitions out = some r) :
    Accounts handed r.2.conn r.2.buffers.flatten := by
  induction partitions generalizing p out with
  | nil =>
    cases hflush
    exact h
  | cons partition rest ih =>
    rw [TopicProducer.flushFrom] at hflush
    split at hflush
    · cases hflush
    · rename_i hfirst
      cases hflush
      exact Accounts.flushPartition h hfirst
    · rename_i hfirst
      exact ih (Accounts.flushPartition h hfirst) hflush
    · rename_i hfirst
      exact ih (Accounts.flushPartition h hfirst) hflush

private theorem route_eq_some {key : Option (List UInt8)} {r : UInt32 × TopicProducer}
    (hroute : p.route key = some r) : r.2.conn = p.conn ∧ r.2.buffers = p.buffers := by
  rw [route.eq_def] at hroute
  split at hroute
  · cases hroute
  · split at hroute <;> cases hroute <;> exact ⟨rfl, rfl⟩

theorem Accounts.send (h : Accounts handed p.conn p.buffers.flatten) {key : Option (List UInt8)}
    {value : List UInt8} {r : Except ClientError (Option (UInt32 × UInt64)) × TopicProducer}
    (hsend : p.send key value = some r) :
    Accounts (handed ++ [⟨key, value⟩]) r.2.conn r.2.buffers.flatten := by
  rw [TopicProducer.send] at hsend
  split at hsend
  · cases hsend
  · rename_i partition p' hroute
    obtain ⟨hconn, hbuffers⟩ := route_eq_some hroute
    dsimp only at hconn hbuffers
    split at hsend
    · cases hsend
    · rename_i records hrecords
      have hpushed : Accounts (handed ++ [⟨key, value⟩]) p'.conn
          (p'.buffers.set partition.toNat (records ++ [⟨key, value⟩])).flatten := by
        rw [hconn]
        refine (h.push ⟨key, value⟩).of_perm ?_
        have hset := flatten_set_perm hrecords (records ++ [⟨key, value⟩])
        rw [List.append_assoc, List.perm_append_left_iff, hbuffers] at hset
        rw [hbuffers]
        exact (hset.trans List.perm_append_comm).symm
      dsimp only at hsend
      split at hsend
      · obtain ⟨r', hflush, rfl⟩ := Option.map_eq_some_iff.mp hsend
        exact Accounts.flushPartition hpushed hflush
      · cases hsend
        exact hpushed

theorem accounts_step {s s' : Handing TopicProducer} {call : TopicProducerCall}
    (h : Accounts s.handed s.producer.conn s.producer.buffers.flatten)
    (hstep : step s call = some s') :
    Accounts s'.handed s'.producer.conn s'.producer.buffers.flatten := by
  cases call with
  | send key value =>
    obtain ⟨r, hsend, rfl⟩ := Option.map_eq_some_iff.mp hstep
    exact Accounts.send h hsend
  | flushPartition partition =>
    obtain ⟨r, hflush, rfl⟩ := Option.map_eq_some_iff.mp hstep
    exact Accounts.flushPartition h hflush
  | flush =>
    obtain ⟨r, hflush, rfl⟩ := Option.map_eq_some_iff.mp hstep
    exact Accounts.flushFrom h hflush

private theorem accounts_new {outcomes : ℕ → Except ClientError UInt64}
    {cluster : Except ClientError ClusterMeta} {topic : String} {acks : Acks} {batchRecords : ℕ}
    (hnew : new (.start outcomes) cluster topic acks batchRecords = .ok p) :
    Accounts [] p.conn p.buffers.flatten := by
  rw [new.eq_def] at hnew
  split at hnew
  · cases hnew
  · split at hnew
    · cases hnew
    · cases hnew
      rw [List.flatten_replicate_nil]
      exact accounts_start outcomes

end TopicProducer

/-- In every state that calls lead to, a producer of either kind keeps its records if and only if
the broker acknowledged each batch that it sent so far. -/
theorem conserves_iff (outcomes : ℕ → Except ClientError UInt64) (topic : String) {acks : Acks}
    (_ : acks ≠ .none) (batchRecords : ℕ) :
    (∀ partition s, Reach Producer.step AnyCall
        { handed := [], producer := .new (.start outcomes) topic partition acks batchRecords } s →
      (Conserves s.handed s.producer.conn s.producer.buf ↔ s.producer.conn.AllAcked)) ∧
    ∀ cluster p, TopicProducer.new (.start outcomes) cluster topic acks batchRecords = .ok p →
      ∀ s, Reach TopicProducer.step AnyCall { handed := [], producer := p } s →
        (Conserves s.handed s.producer.conn s.producer.buffers.flatten ↔
          s.producer.conn.AllAcked) := by
  constructor
  · intro partition s hreach
    refine (hreach.invariant (P := fun s => Accounts s.handed s.producer.conn s.producer.buf) ?_
      fun _ _ _ hs _ hstep => Producer.accounts_step hs hstep).conserves
    exact accounts_start outcomes
  · intro cluster p hnew s hreach
    refine (hreach.invariant (P := fun s => Accounts s.handed s.producer.conn
      s.producer.buffers.flatten) ?_
      fun _ _ _ hs _ hstep => TopicProducer.accounts_step hs hstep).conserves
    exact TopicProducer.accounts_new hnew

/-- The first request is acknowledged, any further ones fail. -/
def firstOnly : ℕ → Except ClientError UInt64
  | 0 => .ok 0
  | _ + 1 => .error .closed

/-- Three records in batches of two, one of them still buffered. -/
theorem conserves_iff_first : ∃ s, Reach Producer.step AnyCall
    { handed := [], producer := .new (.start firstOnly) "t" 0 .written 2 } s ∧
      s.handed.length = 3 ∧ Conserves s.handed s.producer.conn s.producer.buf := by
  obtain ⟨s, hreach, hlength, hall⟩ := Reach.exists_of_runSteps Producer.step AnyCall
    { handed := [], producer := .new (.start firstOnly) "t" 0 .written 2 }
    [.send none [1], .send none [2], .send none [3]]
    (fun s => s.handed.length = 3 ∧ s.producer.conn.AllAcked) (by decide)
  exact ⟨s, hreach, hlength,
    ((conserves_iff firstOnly "t" (show Acks.written ≠ .none from nofun) 2).1 0 s hreach).mpr hall⟩

/-- The flush of the second partition fails, and its record is gone. -/
theorem record_dropped : ∃ cluster p s,
    TopicProducer.new (.start firstOnly) (.ok cluster) "t" .written 2 = .ok p ∧
      Reach TopicProducer.step AnyCall { handed := [], producer := p } s ∧
      ¬ Conserves s.handed s.producer.conn s.producer.buffers.flatten := by
  let offline : Proto.PartitionMeta := ⟨0, -1, 0, [], []⟩
  let cluster : ClusterMeta := ⟨1, [], [], [⟨"t", [offline, offline]⟩]⟩
  let p : TopicProducer := ⟨.start firstOnly, "t", 2, .written, 2, [[], []], 0⟩
  obtain ⟨s, hreach, hlength, hkept⟩ := Reach.exists_of_runSteps TopicProducer.step AnyCall
    { handed := [], producer := p } [.send none [1], .send none [2], .flush]
    (fun s => s.handed.length = 2 ∧
      (s.producer.conn.acked ++ s.producer.buffers.flatten).length = 1) (by decide)
  refine ⟨cluster, p, s, rfl, hreach, fun hconserves => ?_⟩
  have hle := hconserves.length_le
  omega

end Replog.Client
