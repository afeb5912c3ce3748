import Replog.Checker.Duplicates
import Replog.Checker.Readers
import Replog.Client.Attempts
import Replog.Library.LittleEndian
import Replog.Replication.Contents

/-!
# The workload of a torture run

Each partition has a producer and readers, which go through one cluster client to the replicas of
the partition. What they see is recorded in the history that the checker judges.

The partitions are clusters of their own: what befalls a broker befalls its replicas one after the
other.
-/

namespace Replog.Torture
open Replog.Library Replog.LittleEndian Replog.Checker Replog.Client Replog.Replication
open Replog.Storage (Record)

/-! ## Values -/

/-- The id in the first eight bytes, with zeros up to the size of a value. -/
def encodeValue (id : UInt64) (valueBytes : ℕ) : List UInt8 :=
  leBytes 8 id.toNat ++ List.replicate (max valueBytes 8 - 8) 0

def decodeId (value : List UInt8) : Option UInt64 :=
  if 8 ≤ value.length then some (UInt64.ofNat (leValue (value.take 8))) else none

theorem decodeId_encodeValue (id : UInt64) (valueBytes : ℕ) :
    decodeId (encodeValue id valueBytes) = some id := by
  have hlength : (leBytes 8 id.toNat).length = 8 := length_leBytes 8 _
  have hfits : id.toNat < 256 ^ 8 := id.toNat_lt
  rw [decodeId, encodeValue, if_pos (by rw [List.length_append, hlength]; omega),
    List.take_left' hlength, leValue_leBytes_of_lt hfits, UInt64.ofNat_toNat]

/-! ## Calls -/

structure RunConfig where
  topic : String
  partitions : UInt32
  batchRecords : ℕ
  valueBytes : ℕ
  brokers : BrokerId → BrokerConfig
  host : String → Option BrokerId

inductive Caller where
  | producer (partition : UInt32)
  | reader (name : String) (partition : UInt32)
  deriving DecidableEq

/-- What a call asks the leader of a partition for. -/
inductive Request where
  | produce (ids : List UInt64)
  | fetch (offset : ℕ)
  deriving DecidableEq

def Request.retries : Request → ClientError → Bool
  | .produce _ => retriesProduce
  | .fetch _ => retriesFetch

structure Call where
  partition : UInt32
  request : Request
  attempt : Attempt
  deriving DecidableEq

/-- A request on its way to an address. -/
structure Sent where
  addr : String
  partition : UInt32
  epoch : UInt64
  request : Request
  deriving DecidableEq

def batch (valueBytes : ℕ) (ids : List UInt64) : List KeyValue :=
  ids.map fun id => (none, encodeValue id valueBytes)

/-- What a broker starts on when the request arrives; only a leader serves a fetch. -/
def Request.action (cfg : RunConfig) (b : Broker) (epoch : UInt64) :
    Request → Option Replication.Action
  | .produce ids => some (.produce .all epoch.toNat (batch cfg.valueBytes ids))
  | .fetch offset => if b.repl.isLeader then some (.consumerFetch offset) else none

/-- A request arrives, and is refused where this is `none`. -/
def Sent.arrive (cfg : RunConfig) (r : Sent) (c : Cluster) : Option Cluster :=
  (cfg.host r.addr).bind fun b =>
    (r.request.action cfg (c.nodes b).broker r.epoch).bind fun a =>
      c.step cfg.brokers (.broker b a)

/-- What a read for a consumer at an offset was answered. -/
structure Read where
  partition : UInt32
  offset : ℕ
  records : List Record
  deriving DecidableEq

/-! ## The run -/

structure Run where
  clusters : UInt32 → Cluster
  client : ClusterClient
  ids : ℕ
  calls : Caller → Option Call
  sent : List Sent
  reads : List Read
  positions : String → UInt32 → ℕ
  history : History

inductive Event where
  /-- The controller, a broker or the network of a partition, or another client of it. -/
  | cluster (partition : UInt32) (a : Cluster.Action)
  | refresh (e : RefreshEvent)
  /-- A producer begins its next batch, a reader its next fetch. -/
  | call (who : Caller)
  | route (who : Caller) (connected late : Bool)
  | arrive (k : ℕ)
  /-- The attempt is answered with an error, or its connection fails. -/
  | fail (who : Caller) (error : ClientError) (late : Bool)
  | wake (who : Caller)
  /-- The broker's answer to the produce comes back. -/
  | acked (partition : UInt32) (p : Replication.Pending)
  /-- The records that were read come back; none may come at any time. -/
  | given (name : String) (partition : UInt32) (records : List Record)

namespace Run

def init (replicas : UInt32 → List BrokerId) (bootstrap : List String) : Run where
  clusters partition := .create (replicas partition)
  client := .start bootstrap
  ids := 0
  calls _ := none
  sent := []
  reads := []
  positions _ _ := 0
  history := .new

def setCluster (s : Run) (partition : UInt32) (c : Cluster) : Run :=
  { s with clusters := Function.update s.clusters partition c }

def setCall (s : Run) (who : Caller) (call : Option Call) : Run :=
  { s with calls := Function.update s.calls who call }

theorem clusters_setCluster (s : Run) (partition partition' : UInt32) (c : Cluster) :
    (s.setCluster partition c).clusters partition' =
      if partition' = partition then c else s.clusters partition' :=
  Function.update_apply ..

theorem calls_setCall (s : Run) (who who' : Caller) (call : Option Call) :
    (s.setCall who call).calls who' = if who' = who then call else s.calls who' :=
  Function.update_apply ..

/-- The call goes on after a failed attempt, or returns the error. -/
def failCall (s : Run) (who : Caller) (call : Call) (error : ClientError) (late : Bool) : Run :=
  s.setCall who ((Attempt.failed call.request.retries error late).map fun attempt =>
    { call with attempt })

def recordAcked (topic : String) (h : History) (ids : List UInt64) : History :=
  ids.foldl (fun h id => h.recordProduced id topic) h

/-- A record whose value holds no id is passed over. -/
def recordGiven (topic name : String) (partition : UInt32) (h : History) (records : List Record) :
    History :=
  records.foldl (fun h r => (decodeId r.value).elim h fun id =>
    h.recordConsumed name 0 topic partition (UInt64.ofNat r.offset) id) h

/-- Ids and positions are 64-bit numbers that may not overflow. -/
def step (cfg : RunConfig) (s : Run) : Event → Option Run
  | .cluster partition a =>
    ((s.clusters partition).step cfg.brokers a).map fun c =>
      { s.setCluster partition c with
        reads := s.reads ++ ((s.clusters partition).consumerReads c a).map fun (offset, records) =>
          ⟨partition, offset, records⟩ }
  | .refresh e => (s.client.step e).map fun client => { s with client }
  | .call (.producer partition) =>
    if s.calls (.producer partition) = none ∧ partition < cfg.partitions ∧
        s.ids + cfg.batchRecords < 2 ^ 64 then
      some ({ s with ids := s.ids + cfg.batchRecords }.setCall (.producer partition)
        (some ⟨partition, .produce (RunState.batchIds s.ids cfg.batchRecords), .route⟩))
    else none
  | .call (.reader name partition) =>
    if s.calls (.reader name partition) = none ∧ partition < cfg.partitions then
      some (s.setCall (.reader name partition)
        (some ⟨partition, .fetch (s.positions name partition), .route⟩))
    else none
  | .route who connected late =>
    match s.calls who with
    | some call =>
      if call.attempt = .route then
        let (attempt, target) :=
          s.client.attempt call.request.retries cfg.topic call.partition connected late
        some { s.setCall who (attempt.map fun attempt => { call with attempt }) with
          sent := s.sent ++ (target.map fun (addr, epoch) =>
            ⟨addr, call.partition, epoch, call.request⟩).toList }
      else none
    | none => none
  | .arrive k =>
    s.sent[k]?.map fun r =>
      let s' := { s with sent := s.sent.eraseIdx k }
      (r.arrive cfg (s.clusters r.partition)).elim s' (s'.setCluster r.partition)
  | .fail who error late =>
    match s.calls who with
    | some call =>
      match call.attempt with
      | .await _ => some (s.failCall who call error late)
      | _ => none
    | none => none
  | .wake who =>
    match s.calls who with
    | some call =>
      if call.attempt = .backoff then some (s.setCall who (some { call with attempt := .route }))
      else none
    | none => none
  | .acked partition p =>
    match s.calls (.producer partition) with
    | some ⟨_, .produce ids, .await addr⟩ =>
      if ∃ b ∈ cfg.host addr, .completed p ∈ ((s.clusters partition).nodes b).trace ∧
          p.ticket.records = batch cfg.valueBytes ids then
        some { s.setCall (.producer partition) none with
          history := recordAcked cfg.topic s.history ids }
      else none
    | _ => none
  | .given name partition records =>
    match s.calls (.reader name partition) with
    | some ⟨_, .fetch offset, .await _⟩ =>
      if (records = [] ∨ ⟨partition, offset, records⟩ ∈ s.reads) ∧
          ∀ r ∈ records, r.offset + 1 < 2 ^ 64 then
        some { s.setCall (.reader name partition) none with
          positions := moved s.positions name partition
            (records.foldl (fun _ r => r.offset + 1) (s.positions name partition))
          history := recordGiven cfg.topic name partition s.history records }
      else none
    | _ => none

/-- Every partition keeps its first leader, and whoever writes to it puts an id into the value. -/
def Undisturbed (l : UInt32 → BrokerId) (s : Run) : Event → Prop
  | .cluster partition a => Cluster.Stays (l partition) (s.clusters partition) a ∧
    ∀ r ∈ a.produces, (decodeId r.2).isSome = true
  | _ => True

instance (l : UInt32 → BrokerId) (s : Run) (e : Event) : Decidable (s.Undisturbed l e) :=
  match e with
  | .cluster _ _ => inferInstanceAs (Decidable (_ ∧ _))
  | .refresh _ | .call _ | .route _ _ _ | .arrive _ | .fail _ _ _ | .wake _ | .acked _ _
  | .given _ _ _ => isTrue trivial

end Run
end Replog.Torture
