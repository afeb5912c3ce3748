import Replog.Partition.DurableQueue
import Replog.Proto.RoundTrip
import Replog.Serving.Requests

/-!
# Pipelined produces

A client sends produces without waiting for their answers. A connection's task puts them into the
queues of the partitions in the order in which it reads them, a partition's thread takes them one by
one, and tasks of their own hand the answers to the connection's writer, in any order. The log holds
the batches of every client in the order in which they were sent, and each request is answered once.
The writer ends at the first write that fails, and what it has not written then is lost.
-/

namespace Replog.Serving
open Replog.Library
open Replog.Hosting (validTopicName)
open Replog.Partition (KeyValue Produce Thread TooLarge keyValue mapFailure)
open Replog.Proto (ErrorCode Request Response decodeRequest encodeResponse)
open Replog.Storage (Clock Dir FsyncPolicy Log LogConfig Record Represents)

/-- What a produce comes to: the offset of its first record and their number, or an error. -/
abbrev AppendResult := Except ErrorCode (ℕ × ℕ)

/-- A produce in a partition, with the connection and the request it came from. -/
structure Sent where
  conn : ℕ
  index : ℕ
  corr : UInt32
  produce : Produce

/-- Whether somebody waits for a reply. -/
def Sent.asks (q : Sent) : Bool := q.produce.acks ≠ .none

/-- A partition with the queue of its thread. -/
structure Lane where
  thread : Thread
  queue : List Sent
  /-- Whose appends the thread has pending, in their order. -/
  waiting : List Sent
  taken : List Sent

structure Answer where
  index : ℕ
  corr : UInt32
  response : Response

/-- A connection, with the requests read so far and the answers handed to its writer. -/
structure Session where
  requests : List (UInt32 × Request)
  closed : Bool
  answers : List Answer
  /-- How many of the answers are written. -/
  written : ℕ
  /-- A write has failed, and the writer has ended. -/
  failed : Bool

namespace Session

def frames (s : Session) : List (List UInt8) :=
  (s.answers.take s.written).map fun a => encodeResponse a.response a.corr

/-- The writer takes the next answer, if there is one. -/
def write (ok : Bool) (s : Session) : Session :=
  if s.failed || s.answers.length ≤ s.written then s
  else if ok then { s with written := s.written + 1 }
  else { s with failed := true }

private theorem write_requests (ok : Bool) (s : Session) :
    (s.write ok).requests = s.requests ∧ (s.write ok).answers = s.answers := by
  rw [write]
  split_ifs <;> exact ⟨rfl, rfl⟩

private theorem frames_writes {s : Session} (h : s.failed = false) :
    ((write true)^[s.answers.length - s.written] s).frames =
      s.answers.map fun a => encodeResponse a.response a.corr := by
  generalize hn : s.answers.length - s.written = n
  induction n generalizing s with
  | zero =>
    rw [Function.iterate_zero_apply, frames, List.take_of_length_le (by omega)]
  | succ n ih =>
    have hwrite : s.write true = { s with written := s.written + 1 } := by
      rw [write, h, if_neg, if_pos rfl]
      simpa using (by omega : s.written < s.answers.length)
    rw [Function.iterate_succ_apply, hwrite]
    exact ih (s := { s with written := s.written + 1 }) h (by dsimp only; omega)

end Session

/-- A broker without a cluster that was started on an empty directory, as far as topics are created
and produces come. -/
structure Pipelines where
  topics : Assoc String ℕ
  lanes : String → UInt32 → Option Lane
  sessions : ℕ → Session
  /-- The replies that tasks have yet to send on. -/
  tasks : List (Sent × AppendResult)

def produceResponse : AppendResult → Response
  | .ok (base, count) => .produce .none (.ofNat base) (.ofNat count)
  | .error code => .produce code 0 0

/-- What the sender of a reply is told; only appends are asked for here. -/
def appendResult : Partition.Reply → AppendResult
  | .append _ result => result
  | _ => .error .storage

/-! ## The thread of a partition -/

private theorem length_drainPending_le (durable : Option ℕ) (pending : List Partition.Pending) :
    (Thread.drainPending durable pending).1.length ≤ pending.length := by
  induction pending with
  | nil => exact le_rfl
  | cons p rest ih =>
    rw [Thread.drainPending]
    split_ifs
    · exact Nat.succ_le_succ ih
    · exact Nat.zero_le _

namespace Lane

/-- The replies at the front of the queue of pending appends go to those who wait there. -/
def settle (l : Lane) (waiting : List Sent) (r : List Partition.Reply × Thread) :
    List (Sent × AppendResult) × Lane :=
  (waiting.zip (r.1.map appendResult),
    { l with thread := r.2, waiting := waiting.drop r.1.length })

variable (crc : List UInt8 → UInt32) (policy : FsyncPolicy)

/-- The thread appends a batch, and whoever sent it is answered or waits. -/
def append (q : Sent) (clock : ℕ → Clock) (now : ℕ) (l : Lane) :
    List (Sent × AppendResult) × Lane :=
  let (p, s) := Thread.appendAll crc q.produce.records clock ⟨none, 0, none⟩ l.thread.state
  let t := (l.thread.withState s).refreshDirty now
  let l := { l with taken := l.taken ++ [q] }
  if q.asks then
    match t.answerAppend policy q.produce p with
    | (reply :: _, t) =>
      let r := l.settle l.waiting t.drain
      ((q, appendResult reply) :: r.1, r.2)
    | ([], t) => l.settle (l.waiting ++ [q]) t.drain
  else l.settle l.waiting t.drain

def timeout (clock : Clock) (l : Lane) : List (Sent × AppendResult) × Lane :=
  l.settle l.waiting (l.thread.timeout policy clock)

private theorem answerAppend_cases (produce : Produce) (p : Thread.Progress) (t : Thread) :
    (∃ reply, t.answerAppend policy produce p = ([reply], t)) ∨
      ∃ last, t.answerAppend policy produce p =
        ([], { t with pending := t.pending ++ [last] }) := by
  rw [Thread.answerAppend]
  split
  · exact .inl ⟨_, rfl⟩
  · exact .inl ⟨_, rfl⟩
  · dsimp only
    split_ifs
    · exact .inl ⟨_, rfl⟩
    · exact .inr ⟨_, rfl⟩

/-- The replies settled are those of the thread, each with whom it is for. -/
theorem settle_drain_results {waiting : List Sent} {t : Thread}
    (h : waiting.length = t.pending.length) (l : Lane) :
    (l.settle waiting t.drain).1.map Prod.snd = t.drain.1.map appendResult := by
  refine List.map_snd_zip ?_
  rw [List.length_map, h]
  exact length_drainPending_le t.log.durableOffset t.pending

/-- That is what the thread does with the command. -/
theorem append_thread {l : Lane} (h : l.waiting.length = l.thread.pending.length) (q : Sent)
    (clock : ℕ → Clock) (now : ℕ) :
    (l.append crc policy q clock now).1.map Prod.snd =
        (l.thread.append crc policy q.produce q.asks clock now).1.map appendResult ∧
      (l.append crc policy q clock now).2.thread =
        (l.thread.append crc policy q.produce q.asks clock now).2 := by
  rw [Lane.append, Thread.append]
  generalize Thread.appendAll crc q.produce.records clock ⟨none, 0, none⟩ l.thread.state = result
  obtain ⟨p, s⟩ := result
  obtain ⟨t, hpending, ht⟩ : ∃ t : Thread, t.pending = l.thread.pending ∧
      (l.thread.withState s).refreshDirty now = t :=
    ⟨(l.thread.withState s).refreshDirty now, rfl, rfl⟩
  dsimp only
  rw [ht]
  rw [← hpending] at h
  by_cases hasks : q.asks = true
  · simp only [hasks, if_true]
    rcases answerAppend_cases policy q.produce p t with ⟨reply, heq⟩ | ⟨last, heq⟩
    · rw [heq]
      exact ⟨congrArg (appendResult reply :: ·) (settle_drain_results h _), rfl⟩
    · rw [heq]
      refine ⟨settle_drain_results ?_ _, rfl⟩
      rw [List.length_append, List.length_append, h]
      rfl
  · simp only [hasks]
    exact ⟨settle_drain_results h _, rfl⟩

end Lane

/-! ## The tasks of the connections -/

namespace Pipelines

def init : Pipelines := ⟨∅, fun _ _ => none, fun _ => ⟨[], false, [], 0, false⟩, []⟩

def setSession (s : Pipelines) (conn : ℕ) (session : Session) : Pipelines :=
  { s with sessions := Function.update s.sessions conn session }

def setLane (s : Pipelines) (topic : String) (partition : UInt32) (l : Lane) : Pipelines :=
  { s with lanes := fun topic' partition' =>
      if topic' = topic ∧ partition' = partition then some l else s.lanes topic' partition' }

def respond (s : Pipelines) (conn index : ℕ) (corr : UInt32) (response : Response) : Pipelines :=
  s.setSession conn { s.sessions conn with
    answers := (s.sessions conn).answers ++ [⟨index, corr, response⟩] }

section Dispatch

variable (crc : List UInt8 → UInt32) (config : LogConfig)

def createTopic (topic : String) (partitions : UInt32) (clock : Clock) (s : Pipelines) :
    ErrorCode × Pipelines :=
  if !validTopicName topic || partitions = 0 || 1024 < partitions then (.malformed, s)
  else if topic ∈ s.topics then (.topicExists, s)
  else
    (.none, { s with
      topics := s.topics.insert topic partitions.toNat
      lanes := fun topic' partition' =>
        if topic' = topic ∧ partition' < partitions then
          (Thread.spawn crc config clock .empty none).map fun thread => ⟨thread, [], [], []⟩
        else s.lanes topic' partition' })

/-- The requests that create partitions or go into their queues. -/
def dispatch (conn index : ℕ) (corr : UInt32) (clock : Clock) (s : Pipelines) :
    Request → Pipelines
  | .createTopic topic partitions replicationFactor =>
    let (code, s) :=
      if 1 < replicationFactor then (.malformed, s)
      else s.createTopic crc config topic partitions clock
    s.respond conn index corr (.createTopic code)
  | .produce topic partition acks leaderEpoch records =>
    if leaderEpoch ≠ 0 then
      if acks = .none then s
      else s.respond conn index corr (produceResponse (.error .fencedEpoch))
    else
      match s.lanes topic partition with
      | none =>
        if acks = .none then s
        else s.respond conn index corr (produceResponse (.error .unknownTopicOrPartition))
      | some l =>
        s.setLane topic partition { l with
          queue := l.queue ++
            [⟨conn, index, corr, ⟨records.map fun r => (r.key, r.value), acks⟩⟩] }
  | _ => s

inductive Action where
  /-- A connection's task has read a frame. -/
  | frame (conn : ℕ) (body : List UInt8) (clock : Clock)
  | hangUp (conn : ℕ)
  /-- A partition's thread takes the next command. -/
  | append (topic : String) (partition : UInt32) (clock : ℕ → Clock) (now : ℕ)
  | timeout (topic : String) (partition : UInt32) (clock : Clock)
  /-- A task hands its answer to the writer. -/
  | answer (k : ℕ)
  /-- The writer of a connection writes, or fails to. -/
  | write (conn : ℕ) (ok : Bool)

def step (s : Pipelines) : Action → Option Pipelines
  | .frame conn body clock =>
    let session := s.sessions conn
    if session.closed then none
    else
      match decodeRequest body with
      | .ok (corr, req) =>
        some ((s.setSession conn { session with
          requests := session.requests ++ [(corr, req)] }).dispatch crc config conn
            session.requests.length corr clock req)
      | .error _ => some (s.setSession conn { session with closed := true })
  | .hangUp conn => some (s.setSession conn { s.sessions conn with closed := true })
  | .append topic partition clock now =>
    match s.lanes topic partition with
    | some l =>
      match l.queue with
      | q :: queue =>
        let r := { l with queue }.append crc config.fsync q clock now
        some { s.setLane topic partition r.2 with tasks := s.tasks ++ r.1 }
      | [] => none
    | none => none
  | .timeout topic partition clock =>
    match s.lanes topic partition with
    | some l =>
      let r := l.timeout config.fsync clock
      some { s.setLane topic partition r.2 with tasks := s.tasks ++ r.1 }
    | none => none
  | .answer k =>
    match s.tasks[k]? with
    | some (q, result) =>
      some ({ s with tasks := s.tasks.eraseIdx k }.respond q.conn q.index q.corr
        (produceResponse result))
    | none => none
  | .write conn ok => some (s.setSession conn ((s.sessions conn).write ok))

end Dispatch

/-- Offsets are `u64`. -/
def Room (s : Pipelines) : Action → Prop
  | .append topic partition _ _ => ∀ l ∈ s.lanes topic partition, ∀ q ∈ l.queue.head?,
    l.thread.log.nextOffset + q.produce.records.length ≤ 2 ^ 64
  | _ => True

end Pipelines

/-! ## What should hold -/

/-- What is written of a batch: the records before the first that is too large. -/
def written (config : LogConfig) (q : Sent) : List KeyValue :=
  q.produce.records.takeWhile fun kv => ¬ TooLarge config kv

/-- A batch is written as a whole behind those taken before it. -/
def Placed (config : LogConfig) (taken : List Sent) (q : Sent) (base count : ℕ) : Prop :=
  ∃ i, taken[i]? = some q ∧ written config q = q.produce.records ∧
    base = ((taken.take i).flatMap (written config)).length ∧ count = q.produce.records.length

namespace Pipelines

/-- The request that a produce came from. -/
def CameFrom (s : Pipelines) (topic : String) (partition : UInt32) (q : Sent) : Prop :=
  ∃ records : List Proto.ProduceRecord,
    (s.sessions q.conn).requests[q.index]? =
      some (q.corr, .produce topic partition q.produce.acks 0 records) ∧
    q.produce.records = records.map fun r => (r.key, r.value)

def Is (conn n : ℕ) (q : Sent) : Bool := q.conn = conn ∧ q.index = n

/-- How often a request is answered or still has to be. -/
def places (s : Pipelines) (topic : String) (partition : UInt32) (conn n : ℕ) : ℕ :=
  (s.sessions conn).answers.countP (·.index = n) + s.tasks.countP (Is conn n ·.1) +
    (s.lanes topic partition).elim 0 fun l =>
      l.waiting.countP (Is conn n) + l.queue.countP fun q => Is conn n q && q.asks

end Pipelines

/-! ## One partition -/

variable {crc : List UInt8 → UInt32} {config : LogConfig}

/-- The replies hold what they promise. -/
def Kept (config : LogConfig) (taken : List Sent) (done : List (Sent × AppendResult)) : Prop :=
  ∀ x ∈ done, ∀ base count, x.2 = .ok (base, count) → Placed config taken x.1 base count

/-- The log holds the batches taken, and who waits is pending with what was written. -/
structure Lane.Ok (crc : List UInt8 → UInt32) (config : LogConfig) (l : Lane) : Prop where
  log : ∃ rs, Represents crc (Partition.logConfig config) l.thread.state rs ∧
    rs.map keyValue = l.taken.flatMap (written config)
  waits : List.Forall₂ (fun q p => Placed config l.taken q p.baseOffset p.count) l.waiting
    l.thread.pending

/-- What is settled and what waits on is what waited. -/
structure Settles (crc : List UInt8 → UInt32) (config : LogConfig) (l : Lane)
    (waiting : List Sent) (r : List (Sent × AppendResult) × Lane) : Prop where
  ok : r.2.Ok crc config
  kept : Kept config l.taken r.1
  shared : r.1.map Prod.fst ++ r.2.waiting = waiting
  taken : r.2.taken = l.taken
  queue : r.2.queue = l.queue

theorem Placed.mono {taken : List Sent} {q : Sent} {base count : ℕ}
    (h : Placed config taken q base count) (more : List Sent) :
    Placed config (taken ++ more) q base count := by
  obtain ⟨i, hi, hwhole, hbase, hcount⟩ := h
  have hlt := (List.getElem?_eq_some_iff.mp hi).1
  refine ⟨i, (List.getElem?_append_left hlt).trans hi, hwhole, ?_, hcount⟩
  rwa [List.take_append_of_le_length hlt.le]

theorem Settles.cons {l : Lane} {waiting : List Sent} {r : List (Sent × AppendResult) × Lane}
    (h : Settles crc config l waiting r) (q : Sent) (result : AppendResult)
    (hresult : ∀ base count, result = .ok (base, count) → Placed config l.taken q base count) :
    Settles crc config l (q :: waiting) ((q, result) :: r.1, r.2) :=
  ⟨h.ok, List.forall_mem_cons.mpr ⟨hresult, h.kept⟩, congrArg (q :: ·) h.shared, h.taken, h.queue⟩

private theorem drainPending_settles {R : Sent → Partition.Pending → Prop} (durable : Option ℕ)
    {waiting : List Sent} {pending : List Partition.Pending}
    (h : List.Forall₂ R waiting pending) :
    (waiting.zip ((Thread.drainPending durable pending).1.map appendResult)).map Prod.fst ++
        waiting.drop (Thread.drainPending durable pending).1.length = waiting ∧
      (∀ x ∈ waiting.zip ((Thread.drainPending durable pending).1.map appendResult),
        ∃ p, R x.1 p ∧ x.2 = .ok (p.baseOffset, p.count)) ∧
      List.Forall₂ R (waiting.drop (Thread.drainPending durable pending).1.length)
        (Thread.drainPending durable pending).2 := by
  induction h with
  | nil => exact ⟨rfl, fun _ hx => absurd hx List.not_mem_nil, .nil⟩
  | @cons q p waiting pending hfirst hrest ih =>
    obtain ⟨hshared, hzip, hleft⟩ := ih
    rw [Thread.drainPending]
    split_ifs
    · exact ⟨congrArg (q :: ·) hshared, List.forall_mem_cons.mpr ⟨⟨p, hfirst, rfl⟩, hzip⟩, hleft⟩
    · exact ⟨rfl, fun _ hx => absurd hx List.not_mem_nil, .cons hfirst hrest⟩

namespace Lane

theorem settle_drain {l : Lane} {waiting : List Sent} {t : Thread} {rs : List Record}
    (hlog : Represents crc (Partition.logConfig config) t.state rs)
    (hrs : rs.map keyValue = l.taken.flatMap (written config))
    (h : List.Forall₂ (fun q p => Placed config l.taken q p.baseOffset p.count) waiting
      t.pending) : Settles crc config l waiting (l.settle waiting t.drain) := by
  obtain ⟨hshared, hzip, hleft⟩ := drainPending_settles t.log.durableOffset h
  refine ⟨⟨⟨rs, hlog, hrs⟩, hleft⟩, fun x hx base count hok => ?_, hshared, rfl, rfl⟩
  obtain ⟨p, hplaced, heq⟩ := hzip x hx
  rw [heq, Except.ok.injEq, Prod.mk.injEq] at hok
  rw [← hok.1, ← hok.2]
  exact hplaced

theorem Ok.timeout {l : Lane} (h : l.Ok crc config) (policy : FsyncPolicy) (clock : Clock) :
    Settles crc config l l.waiting (l.timeout policy clock) := by
  obtain ⟨rs, hlog, hrs⟩ := h.log
  have hself : Settles crc config l l.waiting (l.settle l.waiting ([], l.thread)) := by
    refine ⟨⟨⟨rs, hlog, hrs⟩, h.waits⟩, fun _ hx => ?_, ?_, rfl, rfl⟩
    · simp [settle] at hx
    · simp [settle]
  rw [Lane.timeout, Thread.timeout]
  split
  · split_ifs
    · obtain ⟨cs, act, hok, hflat⟩ := hlog
      obtain ⟨log, hrun, -, -, -, hok'⟩ := Storage.flush_spec hok clock
      rw [Thread.flush, hrun]
      exact settle_drain (t := { l.thread.withState _ with dirtySince := none })
        ⟨cs, act, hok', hflat⟩ hrs h.waits
    · exact hself
  · exact hself

private theorem placed_last {taken : List Sent} {q : Sent} {rs more : List Record}
    (hrs : rs.map keyValue = taken.flatMap (written config))
    (hmore : more.map keyValue = written config q)
    (hwritten : (rs ++ more).length = rs.length + q.produce.records.length) :
    Placed config (taken ++ [q]) q rs.length q.produce.records.length := by
  have hlength := congrArg List.length hrs
  rw [List.length_map] at hlength
  refine ⟨taken.length, List.getElem?_concat_length, ?_, ?_, rfl⟩
  · refine (List.takeWhile_prefix _).eq_of_length ?_
    have hsame := congrArg List.length hmore
    rw [List.length_map] at hsame
    rw [List.length_append] at hwritten
    rw [← written]
    omega
  · rw [List.take_left' rfl, hlength]

theorem Ok.append (hc : config.Valid) {l : Lane} (h : l.Ok crc config) (policy : FsyncPolicy)
    (q : Sent) (hroom : l.thread.log.nextOffset + q.produce.records.length ≤ 2 ^ 64)
    (clock : ℕ → Clock) (now : ℕ) :
    ∃ order, order.Perm (l.waiting ++ if q.asks then [q] else []) ∧
      Settles crc config { l with taken := l.taken ++ [q] } order
        (l.append crc policy q clock now) := by
  obtain ⟨rs, hlog, hrs⟩ := h.log
  have hnext : l.thread.log.nextOffset = rs.length := hlog.nextOffset_eq
  obtain ⟨opened, hinv⟩ := Partition.Represents.logInv hlog
  rw [hnext] at hroom
  obtain ⟨whole, _, _, -, -, hwhole, -, hcovers⟩ := Partition.appendAll_inv
    Storage.LogFile.enduring_length (Partition.logConfig_valid hc) clock ⟨none, 0, none⟩ hinv hroom
  obtain ⟨more, hrep, hmore, -⟩ := Partition.appendAll_takeWhile (Partition.logConfig_valid hc)
    clock ⟨none, 0, none⟩ hlog hroom
  have hend : (rs ++ more).length = (rs ++ whole).length := by
    rw [← hrep.nextOffset_eq, ← hwhole.represents.nextOffset_eq]
  have hmore' : more.map keyValue = written config q := by
    refine hmore.trans (congrArg (List.takeWhile · _) (funext fun kv => ?_))
    rw [decide_eq_decide, TooLarge, TooLarge, Partition.logConfig_maxRecordBytes]
  have hrs' : (rs ++ more).map keyValue = (l.taken ++ [q]).flatMap (written config) := by
    rw [List.map_append, List.flatMap_append, hrs, hmore', List.flatMap_singleton]
  have hwaits := h.waits.imp fun _ _ hplaced => Placed.mono hplaced [q]
  rw [Lane.append]
  generalize Thread.appendAll crc q.produce.records clock ⟨none, 0, none⟩ l.thread.state = result
    at hwhole hcovers hrep
  obtain ⟨⟨base, count, error⟩, s⟩ := result
  obtain ⟨t, hstate, hpending, ht⟩ : ∃ t : Thread, t.state = s ∧ t.pending = l.thread.pending ∧
      (l.thread.withState s).refreshDirty now = t :=
    ⟨(l.thread.withState s).refreshDirty now, rfl, rfl, rfl⟩
  dsimp only at hrep ⊢
  rw [ht]
  rw [← hstate] at hrep
  rw [← hpending] at hwaits
  have hdrained := settle_drain (l := { l with taken := l.taken ++ [q] }) hrep hrs' hwaits
  by_cases hasks : q.asks = true
  · rw [if_pos hasks, if_pos hasks]
    -- whoever is answered at once goes before those who wait
    have hfront : (q :: l.waiting).Perm (l.waiting ++ [q]) :=
      (List.perm_append_singleton q l.waiting).symm
    cases error with
    | some code =>
      exact ⟨_, hfront, hdrained.cons q (.error code) fun _ _ hok => by cases hok⟩
    | none =>
      obtain ⟨hwritten, hcount, hbase⟩ := hcovers rfl
      simp only [Nat.zero_add, Option.none_or] at hcount hbase
      have hall : (rs ++ more).length = rs.length + q.produce.records.length := by
        rw [hend, List.length_append, ← hwritten, List.length_map]
      have hplaced := placed_last hrs hmore' hall
      subst hcount
      by_cases hnil : q.produce.records = []
      · rw [if_pos hnil] at hbase
        subst hbase
        refine ⟨_, hfront, hdrained.cons q (.ok (t.log.nextOffset, 0)) fun base count hok => ?_⟩
        have hnext' : t.log.nextOffset = (rs ++ more).length := hrep.nextOffset_eq
        rw [Except.ok.injEq, Prod.mk.injEq, hnext', hall, hnil] at hok
        obtain ⟨rfl, rfl⟩ := hok
        rwa [hnil] at hplaced
      · rw [if_neg hnil] at hbase
        subst hbase
        simp only [Thread.answerAppend]
        split_ifs
        · refine ⟨_, hfront, hdrained.cons q (.ok (rs.length, q.produce.records.length))
            fun base count hok => ?_⟩
          rw [Except.ok.injEq, Prod.mk.injEq] at hok
          obtain ⟨rfl, rfl⟩ := hok
          exact hplaced
        · exact ⟨l.waiting ++ [q], .rfl, settle_drain (l := { l with taken := l.taken ++ [q] })
            hrep hrs' (List.rel_append hwaits (.cons hplaced .nil))⟩
  · rw [if_neg hasks, if_neg hasks]
    exact ⟨l.waiting, by rw [List.append_nil], hdrained⟩

end Lane

theorem Placed.mem {taken : List Sent} {q : Sent} {base count : ℕ}
    (h : Placed config taken q base count) : q ∈ taken := by
  obtain ⟨i, hi, -⟩ := h
  exact List.mem_of_getElem? hi

theorem mem_taken_of_waits {taken waiting : List Sent} {pending : List Partition.Pending}
    (h : List.Forall₂ (fun q p => Placed config taken q p.baseOffset p.count) waiting pending)
    {q : Sent} (hq : q ∈ waiting) : q ∈ taken := by
  induction h with
  | nil => cases hq
  | cons hfirst _ ih =>
    rcases List.mem_cons.mp hq with rfl | hq
    · exact hfirst.mem
    · exact ih hq

/-! ## The broker -/

namespace Pipelines

/-- An answer belongs to a request; that to a produce says where its batch is. -/
def Answered (config : LogConfig) (s : Pipelines) (conn : ℕ) (a : Answer) : Prop :=
  a.response.Fits ∧ ∃ req, (s.sessions conn).requests[a.index]? = some (a.corr, req) ∧
    ∀ topic partition acks epoch records, req = .produce topic partition acks epoch records →
      ∃ result, a.response = produceResponse result ∧
        ∀ base count, result = .ok (base, count) →
          ∃ l q, s.lanes topic partition = some l ∧ q.conn = conn ∧ q.index = a.index ∧
            q.produce.records = records.map (fun r => (r.key, r.value)) ∧
            Placed config l.taken q base count

/-- Between two steps nothing is owed; within one, the request at hand may be. -/
structure Inv (crc : List UInt8 → UInt32) (config : LogConfig) (owed : Option (ℕ × ℕ))
    (s : Pipelines) : Prop where
  lanes : ∀ topic partition l, s.lanes topic partition = some l → l.Ok crc config
  topics : ∀ topic partition l, s.lanes topic partition = some l → topic ∈ s.topics
  origin : ∀ topic partition l, s.lanes topic partition = some l →
    ∀ q ∈ l.taken ++ l.queue, s.CameFrom topic partition q
  order : ∀ topic partition l, s.lanes topic partition = some l →
    (l.taken ++ l.queue).Pairwise fun q q' => q.conn = q'.conn → q.index < q'.index
  tasks : ∀ x ∈ s.tasks, ∃ topic partition l, s.lanes topic partition = some l ∧
    x.1 ∈ l.taken ∧ ∀ base count, x.2 = .ok (base, count) → Placed config l.taken x.1 base count
  answers : ∀ conn, ∀ a ∈ (s.sessions conn).answers, s.Answered config conn a
  once : ∀ conn n corr topic partition acks epoch records,
    (s.sessions conn).requests[n]? = some (corr, .produce topic partition acks epoch records) →
      acks ≠ .none →
        s.places topic partition conn n + (if owed = some (conn, n) then 1 else 0) = 1

variable {s s' : Pipelines} {owed : Option (ℕ × ℕ)}

theorem CameFrom.lt_length {topic : String} {partition : UInt32} {q : Sent}
    (h : s.CameFrom topic partition q) : q.index < (s.sessions q.conn).requests.length := by
  obtain ⟨records, hrequest, -⟩ := h
  exact (List.getElem?_eq_some_iff.mp hrequest).1

private theorem Inv.places_fresh (h : s.Inv crc config owed) (topic : String) (partition : UInt32)
    {conn n : ℕ} (hn : (s.sessions conn).requests.length ≤ n) :
    s.places topic partition conn n = 0 := by
  have hnot {topic : String} {partition : UInt32} {q : Sent} (hq : s.CameFrom topic partition q) :
      Is conn n q = false := by
    rw [Is, decide_eq_false_iff_not]
    rintro ⟨rfl, rfl⟩
    have hlt := hq.lt_length
    omega
  have hanswers : (s.sessions conn).answers.countP (·.index = n) = 0 := by
    refine List.countP_eq_zero.mpr fun a ha heq => ?_
    obtain ⟨-, req, hrequest, -⟩ := h.answers conn a ha
    have hlt := (List.getElem?_eq_some_iff.mp hrequest).1
    have hsame : a.index = n := of_decide_eq_true heq
    omega
  have htasks : s.tasks.countP (Is conn n ·.1) = 0 := by
    refine List.countP_eq_zero.mpr fun x hx => ?_
    obtain ⟨topic, partition, l, hl, htaken, -⟩ := h.tasks x hx
    rw [hnot (h.origin topic partition l hl x.1 (List.mem_append_left _ htaken))]
    exact Bool.false_ne_true
  rw [places, hanswers, htasks]
  cases hl : s.lanes topic partition with
  | none => rfl
  | some l =>
    have hwaiting : l.waiting.countP (Is conn n) = 0 := by
      refine List.countP_eq_zero.mpr fun q hq => ?_
      have htaken := mem_taken_of_waits (h.lanes topic partition l hl).waits hq
      rw [hnot (h.origin topic partition l hl q (List.mem_append_left _ htaken))]
      exact Bool.false_ne_true
    have hqueue : l.queue.countP (fun q => Is conn n q && q.asks) = 0 := by
      refine List.countP_eq_zero.mpr fun q hq => ?_
      rw [hnot (h.origin topic partition l hl q (List.mem_append_right _ hq)), Bool.false_and]
      exact Bool.false_ne_true
    rw [Option.elim_some, hwaiting, hqueue]

/-- The requests of a connection only get more. -/
def Later (s s' : Pipelines) : Prop :=
  ∀ conn, (s.sessions conn).requests <+: (s'.sessions conn).requests

theorem Later.getElem? (h : s.Later s') {conn n : ℕ} {r : UInt32 × Request}
    (hr : (s.sessions conn).requests[n]? = some r) :
    (s'.sessions conn).requests[n]? = some r := by
  obtain ⟨more, hmore⟩ := h conn
  rw [← hmore, List.getElem?_append_left (List.getElem?_eq_some_iff.mp hr).1, hr]

theorem CameFrom.later {topic : String} {partition : UInt32} {q : Sent}
    (h : s.CameFrom topic partition q) (hlater : s.Later s') : s'.CameFrom topic partition q := by
  obtain ⟨records, hrequest, hrecords⟩ := h
  exact ⟨records, hlater.getElem? hrequest, hrecords⟩

/-- The batches that a partition has taken only get more. -/
def Takes (s s' : Pipelines) : Prop :=
  ∀ topic partition l, s.lanes topic partition = some l →
    ∃ l', s'.lanes topic partition = some l' ∧ l.taken <+: l'.taken

theorem Answered.later {conn : ℕ} {a : Answer} (h : s.Answered config conn a)
    (hlater : s.Later s') (htakes : s.Takes s') : s'.Answered config conn a := by
  obtain ⟨hfits, req, hrequest, hproduce⟩ := h
  refine ⟨hfits, req, hlater.getElem? hrequest, fun topic partition acks epoch records hreq => ?_⟩
  obtain ⟨result, hresponse, hplaced⟩ := hproduce topic partition acks epoch records hreq
  refine ⟨result, hresponse, fun base count hok => ?_⟩
  obtain ⟨l, q, hl, hconn, hindex, hrecords, hq⟩ := hplaced base count hok
  obtain ⟨l', hl', more, hmore⟩ := htakes topic partition l hl
  exact ⟨l', q, hl', hconn, hindex, hrecords, hmore ▸ hq.mono more⟩

theorem lanes_setLane (s : Pipelines) {topic : String} {partition : UInt32} (l : Lane)
    {topic' : String} {partition' : UInt32} {l' : Lane}
    (h : (s.setLane topic partition l).lanes topic' partition' = some l') :
    topic' = topic ∧ partition' = partition ∧ l' = l ∨ s.lanes topic' partition' = some l' := by
  change (if topic' = topic ∧ partition' = partition then some l else
    s.lanes topic' partition') = some l' at h
  split_ifs at h with hsame
  · exact .inl ⟨hsame.1, hsame.2, (Option.some.inj h).symm⟩
  · exact .inr h

theorem lanes_setLane_self (s : Pipelines) (topic : String) (partition : UInt32) (l : Lane) :
    (s.setLane topic partition l).lanes topic partition = some l := if_pos ⟨rfl, rfl⟩

theorem takes_setLane {topic : String} {partition : UInt32} {l l' : Lane}
    (hl : s.lanes topic partition = some l) (htaken : l.taken <+: l'.taken) :
    s.Takes (s.setLane topic partition l') := by
  intro topic' partition' l₁ hl₁
  by_cases hsame : topic' = topic ∧ partition' = partition
  · obtain ⟨rfl, rfl⟩ := hsame
    obtain rfl := Option.some.inj (hl.symm.trans hl₁)
    exact ⟨l', if_pos ⟨rfl, rfl⟩, htaken⟩
  · exact ⟨l₁, (if_neg hsame).trans hl₁, List.prefix_rfl⟩

theorem CameFrom.eq {topic topic' : String} {partition partition' : UInt32} {q : Sent} {n : ℕ}
    {conn : ℕ} {corr : UInt32} {acks : Proto.Acks} {epoch : UInt64}
    {records : List Proto.ProduceRecord} (h : s.CameFrom topic partition q)
    (hrequest : (s.sessions conn).requests[n]? =
      some (corr, .produce topic' partition' acks epoch records))
    (his : Is conn n q = true) : topic' = topic ∧ partition' = partition := by
  obtain ⟨hconn, hindex⟩ := of_decide_eq_true his
  obtain ⟨records', hrequest', -⟩ := h
  rw [hconn, hindex, hrequest, Option.some.injEq, Prod.mk.injEq,
    Request.produce.injEq] at hrequest'
  exact ⟨hrequest'.2.1, hrequest'.2.2.1⟩

/-- A thread takes commands, or flushes, and hands out replies. -/
theorem Inv.settled (h : s.Inv crc config owed) {topic : String} {partition : UInt32} {l l' : Lane}
    (hl : s.lanes topic partition = some l) {front order : List Sent}
    {done : List (Sent × AppendResult)} (hqueue : l.queue = front ++ l'.queue)
    (htaken : l'.taken = l.taken ++ front) (hok : l'.Ok crc config)
    (hkept : Kept config l'.taken done) (hshared : done.map Prod.fst ++ l'.waiting = order)
    (horder : order.Perm (l.waiting ++ front.filter Sent.asks)) :
    Inv crc config owed { s.setLane topic partition l' with tasks := s.tasks ++ done } := by
  have hsame : l'.taken ++ l'.queue = l.taken ++ l.queue := by
    rw [htaken, hqueue, List.append_assoc]
  have htakes : s.Takes { s.setLane topic partition l' with tasks := s.tasks ++ done } :=
    takes_setLane hl (htaken ▸ List.prefix_append _ _)
  have hdone : ∀ x ∈ done, x.1 ∈ l'.taken := by
    intro x hx
    have hmem : x.1 ∈ l.waiting ++ front.filter Sent.asks := by
      refine horder.subset ?_
      rw [← hshared]
      exact List.mem_append_left _ (List.mem_map_of_mem hx)
    rw [htaken]
    rcases List.mem_append.mp hmem with hwaiting | hfront
    · exact List.mem_append_left _ (mem_taken_of_waits (h.lanes _ _ l hl).waits hwaiting)
    · exact List.mem_append_right _ (List.mem_of_mem_filter hfront)
  refine ⟨fun t p l₁ hl₁ => ?_, fun t p l₁ hl₁ => ?_, fun t p l₁ hl₁ q hq => ?_,
    fun t p l₁ hl₁ => ?_, fun x hx => ?_, fun conn a ha => ?_, ?_⟩
  · rcases lanes_setLane s l' hl₁ with ⟨-, -, rfl⟩ | hold
    · exact hok
    · exact h.lanes t p l₁ hold
  · rcases lanes_setLane s l' hl₁ with ⟨rfl, rfl, -⟩ | hold
    · exact h.topics t p l hl
    · exact h.topics t p l₁ hold
  · rcases lanes_setLane s l' hl₁ with ⟨rfl, rfl, rfl⟩ | hold
    · exact h.origin t p l hl q (hsame ▸ hq)
    · exact h.origin t p l₁ hold q hq
  · rcases lanes_setLane s l' hl₁ with ⟨rfl, rfl, rfl⟩ | hold
    · exact hsame ▸ h.order t p l hl
    · exact h.order t p l₁ hold
  · rcases List.mem_append.mp hx with hx | hx
    · obtain ⟨t, p, l₁, hl₁, hmem, hplaced⟩ := h.tasks x hx
      obtain ⟨l₂, hl₂, more, hmore⟩ := htakes t p l₁ hl₁
      refine ⟨t, p, l₂, hl₂, hmore ▸ List.mem_append_left _ hmem, fun base count hok => ?_⟩
      exact hmore ▸ (hplaced base count hok).mono more
    · exact ⟨topic, partition, l', lanes_setLane_self s topic partition l', hdone x hx, hkept x hx⟩
  · exact (h.answers conn a ha).later (fun _ => List.prefix_rfl) htakes
  · intro conn n corr t p acks epoch records hrequest hacks
    refine Eq.trans (congrArg (· + _) ?_) (h.once conn n corr t p acks epoch records hrequest hacks)
    have hcame : ∀ x ∈ done, s.CameFrom topic partition x.1 := fun x hx =>
      h.origin topic partition l hl x.1 (hsame ▸ List.mem_append_left _ (hdone x hx))
    change (s.sessions conn).answers.countP (·.index = n) +
      (s.tasks ++ done).countP (Is conn n ·.1) +
        ((s.setLane topic partition l').lanes t p).elim 0 _ = s.places t p conn n
    rw [places, List.countP_append]
    by_cases hthis : t = topic ∧ p = partition
    · obtain ⟨rfl, rfl⟩ := hthis
      have hcount := horder.countP_eq (Is conn n)
      rw [← hshared, List.countP_append, List.countP_append, List.countP_map,
        List.countP_filter] at hcount
      rw [lanes_setLane_self, hl, Option.elim_some, Option.elim_some, hqueue, List.countP_append]
      have hmap : done.countP (Is conn n ·.1) = done.countP (Is conn n ∘ Prod.fst) := rfl
      omega
    · have hnone : done.countP (Is conn n ·.1) = 0 := by
        refine List.countP_eq_zero.mpr fun x hx his => hthis ?_
        exact (hcame x hx).eq hrequest his
      rw [hnone, show (s.setLane topic partition l').lanes t p = s.lanes t p from if_neg hthis,
        Nat.add_zero]

theorem Inv.append (hc : config.Valid) (h : s.Inv crc config owed) {topic : String}
    {partition : UInt32} {l : Lane} {q : Sent} {queue : List Sent}
    (hl : s.lanes topic partition = some l) (hqueue : l.queue = q :: queue)
    (hroom : l.thread.log.nextOffset + q.produce.records.length ≤ 2 ^ 64) (clock : ℕ → Clock)
    (now : ℕ) :
    let r := Lane.append crc config.fsync q clock now { l with queue }
    Inv crc config owed { s.setLane topic partition r.2 with tasks := s.tasks ++ r.1 } := by
  have hok : Lane.Ok crc config { l with queue } :=
    ⟨(h.lanes _ _ l hl).log, (h.lanes _ _ l hl).waits⟩
  obtain ⟨order, horder, hsettles⟩ := hok.append hc config.fsync q hroom clock now
  have hfront : l.queue =
      [q] ++ (Lane.append crc config.fsync q clock now { l with queue }).2.queue := by
    rw [hsettles.queue]
    exact hqueue
  refine h.settled hl hfront hsettles.taken hsettles.ok ?_ hsettles.shared ?_
  · rw [hsettles.taken]
    exact hsettles.kept
  · refine horder.trans (.of_eq (congrArg (l.waiting ++ ·) ?_))
    rw [List.filter_cons, List.filter_nil]

theorem Inv.timeout (h : s.Inv crc config owed) {topic : String} {partition : UInt32} {l : Lane}
    (hl : s.lanes topic partition = some l) (clock : Clock) :
    let r := l.timeout config.fsync clock
    Inv crc config owed { s.setLane topic partition r.2 with tasks := s.tasks ++ r.1 } := by
  have hsettles := (h.lanes _ _ l hl).timeout config.fsync clock
  have hfront : l.queue = [] ++ (l.timeout config.fsync clock).2.queue := hsettles.queue.symm
  refine h.settled hl hfront ?_ hsettles.ok ?_ hsettles.shared ?_
  · rw [hsettles.taken, List.append_nil]
  · rw [hsettles.taken]
    exact hsettles.kept
  · rw [List.filter_nil, List.append_nil]

/-! ## The tasks -/

private theorem produceResponse_fits (result : AppendResult) : (produceResponse result).Fits := by
  cases result <;> trivial

theorem sessions_setSession (s : Pipelines) (conn : ℕ) (session : Session) (conn' : ℕ) :
    (s.setSession conn session).sessions conn' =
      if conn' = conn then session else s.sessions conn' := by
  exact Function.update_apply ..

/-- A session goes on with the requests and the answers that it has. -/
theorem Inv.setSession (h : s.Inv crc config owed) {conn : ℕ} {session : Session}
    (hrequests : session.requests = (s.sessions conn).requests)
    (hanswers : session.answers = (s.sessions conn).answers) :
    Inv crc config owed (s.setSession conn session) := by
  have hsame (conn' : ℕ) :
      ((s.setSession conn session).sessions conn').requests = (s.sessions conn').requests ∧
        ((s.setSession conn session).sessions conn').answers = (s.sessions conn').answers := by
    rw [sessions_setSession]
    split_ifs with hconn
    · rw [hconn]
      exact ⟨hrequests, hanswers⟩
    · exact ⟨rfl, rfl⟩
  have hlater : s.Later (s.setSession conn session) :=
    fun conn' => (hsame conn').1 ▸ List.prefix_rfl
  have htakes : s.Takes (s.setSession conn session) := fun _ _ l hl => ⟨l, hl, List.prefix_rfl⟩
  refine ⟨h.lanes, h.topics, fun t p l hl q hq => (h.origin t p l hl q hq).later hlater, h.order,
    h.tasks, fun conn' a ha => ?_, ?_⟩
  · rw [(hsame conn').2] at ha
    exact (h.answers conn' a ha).later hlater htakes
  · intro conn' n corr t p acks epoch records hrequest hacks
    rw [(hsame conn').1] at hrequest
    rw [places, (hsame conn').2]
    exact h.once conn' n corr t p acks epoch records hrequest hacks

theorem Inv.respond {conn n : ℕ} (h : s.Inv crc config (some (conn, n))) {corr : UInt32}
    {response : Response} (hanswered : s.Answered config conn ⟨n, corr, response⟩) :
    Inv crc config none (s.respond conn n corr response) := by
  have hsame (conn' : ℕ) : ((s.respond conn n corr response).sessions conn').requests =
        (s.sessions conn').requests ∧
      ((s.respond conn n corr response).sessions conn').answers =
        (s.sessions conn').answers ++ if conn' = conn then [⟨n, corr, response⟩] else [] := by
    rw [Pipelines.respond, sessions_setSession]
    split_ifs with hconn
    · rw [hconn]
      exact ⟨rfl, rfl⟩
    · exact ⟨rfl, (List.append_nil _).symm⟩
  have hlater : s.Later (s.respond conn n corr response) :=
    fun conn' => (hsame conn').1 ▸ List.prefix_rfl
  have htakes : s.Takes (s.respond conn n corr response) :=
    fun _ _ l hl => ⟨l, hl, List.prefix_rfl⟩
  refine ⟨h.lanes, h.topics, fun t p l hl q hq => (h.origin t p l hl q hq).later hlater, h.order,
    h.tasks, fun conn' a ha => ?_, ?_⟩
  · rw [(hsame conn').2] at ha
    rcases List.mem_append.mp ha with hold | hnew
    · exact (h.answers conn' a hold).later hlater htakes
    · split_ifs at hnew with hconn
      · rw [List.mem_singleton.mp hnew, hconn]
        exact hanswered.later hlater htakes
      · exact absurd hnew List.not_mem_nil
  · intro conn' n' corr' t p acks epoch records hrequest hacks
    rw [(hsame conn').1] at hrequest
    have hbefore := h.once conn' n' corr' t p acks epoch records hrequest hacks
    rw [places] at hbefore
    rw [places, (hsame conn').2, List.countP_append]
    change _ + s.tasks.countP (Is conn' n' ·.1) + (s.lanes t p).elim 0 _ + _ = 1
    simp only [reduceCtorEq, if_false]
    by_cases hboth : conn' = conn ∧ n' = n
    · obtain ⟨rfl, rfl⟩ := hboth
      rw [if_pos rfl] at hbefore
      rw [if_pos rfl, List.countP_singleton, if_pos (decide_eq_true rfl)]
      omega
    · rw [if_neg fun heq => hboth (by cases heq; exact ⟨rfl, rfl⟩)] at hbefore
      have hnone : (if conn' = conn then [(⟨n, corr, response⟩ : Answer)] else []).countP
          (·.index = n') = 0 := by
        split_ifs with hconn
        · rw [List.countP_singleton, if_neg]
          exact fun heq => hboth ⟨hconn, (of_decide_eq_true heq).symm⟩
        · rfl
      omega

/-- Nothing is owed for a request that is no produce, or one whose sender does not wait. -/
theorem Inv.silent {conn n : ℕ} (h : s.Inv crc config (some (conn, n))) {r : UInt32 × Request}
    (hrequest : (s.sessions conn).requests[n]? = some r)
    (hsilent : ∀ topic partition acks epoch records,
      r.2 = .produce topic partition acks epoch records → acks = .none) :
    s.Inv crc config none := by
  refine ⟨h.lanes, h.topics, h.origin, h.order, h.tasks, h.answers, ?_⟩
  intro conn' n' corr' t p acks epoch records hrequest' hacks
  have hbefore := h.once conn' n' corr' t p acks epoch records hrequest' hacks
  rwa [if_neg fun heq => ?_] at hbefore
  cases heq
  rw [hrequest, Option.some.injEq] at hrequest'
  exact hacks (hsilent t p acks epoch records (congrArg Prod.snd hrequest'))

private theorem Inv.taskTaken (h : s.Inv crc config none) {k : ℕ} {q : Sent} {result : AppendResult}
    (hk : s.tasks[k]? = some (q, result)) :
    Inv crc config (some (q.conn, q.index)) { s with tasks := s.tasks.eraseIdx k } := by
  refine ⟨h.lanes, h.topics, h.origin, h.order,
    fun x hx => h.tasks x (List.mem_of_mem_eraseIdx hx), h.answers, ?_⟩
  intro conn n corr t p acks epoch records hrequest hacks
  have hbefore := h.once conn n corr t p acks epoch records hrequest hacks
  simp only [reduceCtorEq, if_false] at hbefore
  rw [places] at hbefore
  obtain ⟨hlt, hget⟩ := List.getElem?_eq_some_iff.mp hk
  have hcount := (List.getElem_cons_eraseIdx_perm hlt).countP_eq (Is conn n ·.1)
  rw [hget, List.countP_cons] at hcount
  change (s.sessions conn).answers.countP (·.index = n) +
    (s.tasks.eraseIdx k).countP (Is conn n ·.1) + (s.lanes t p).elim 0 _ + _ = 1
  have howed : (if some (q.conn, q.index) = some (conn, n) then 1 else 0) =
      if Is conn n (q, result).1 = true then 1 else 0 := by
    simp only [Is, decide_eq_true_eq, Option.some.injEq, Prod.mk.injEq]
  rw [howed]
  omega

/-- A request is read: it is owed an answer, if it asks for one. -/
theorem Inv.read (h : s.Inv crc config none) (conn : ℕ) (r : UInt32 × Request) :
    Inv crc config (some (conn, (s.sessions conn).requests.length))
      (s.setSession conn { s.sessions conn with
        requests := (s.sessions conn).requests ++ [r] }) := by
  let s' := s.setSession conn { s.sessions conn with
    requests := (s.sessions conn).requests ++ [r] }
  have hsame (conn' : ℕ) : (s'.sessions conn').requests =
        (s.sessions conn').requests ++ (if conn' = conn then [r] else []) ∧
      (s'.sessions conn').answers = (s.sessions conn').answers := by
    rw [sessions_setSession]
    split_ifs with hconn
    · rw [hconn]
      exact ⟨rfl, rfl⟩
    · exact ⟨(List.append_nil _).symm, rfl⟩
  have hlater : s.Later s' := fun conn' => (hsame conn').1 ▸ List.prefix_append _ _
  have htakes : s.Takes s' := fun _ _ l hl => ⟨l, hl, List.prefix_rfl⟩
  refine ⟨h.lanes, h.topics, fun t p l hl q hq => (h.origin t p l hl q hq).later hlater, h.order,
    h.tasks, fun conn' a ha => ?_, ?_⟩
  · rw [(hsame conn').2] at ha
    exact (h.answers conn' a ha).later hlater htakes
  · intro conn' n corr t p acks epoch records hrequest hacks
    rw [(hsame conn').1] at hrequest
    have hplaces : s'.places t p conn' n = s.places t p conn' n := by
      rw [places, (hsame conn').2]
      rfl
    rw [hplaces]
    by_cases hnew : conn = conn' ∧ (s.sessions conn).requests.length = n
    · obtain ⟨rfl, rfl⟩ := hnew
      rw [if_pos rfl, h.places_fresh t p le_rfl]
    · have hold : (s.sessions conn').requests[n]? =
          some (corr, .produce t p acks epoch records) := by
        rcases Nat.lt_or_ge n (s.sessions conn').requests.length with hlt | hge
        · rwa [List.getElem?_append_left hlt] at hrequest
        · rw [List.getElem?_append_right hge] at hrequest
          split_ifs at hrequest with hconn
          · have hlast := (List.getElem?_eq_some_iff.mp hrequest).1
            rw [List.length_singleton] at hlast
            subst hconn
            exact absurd ⟨rfl, by omega⟩ hnew
          · cases hrequest
      have hbefore := h.once conn' n corr t p acks epoch records hold hacks
      rw [if_neg fun heq => hnew (by cases heq; exact ⟨rfl, rfl⟩)]
      simpa only [reduceCtorEq, if_false] using hbefore

theorem Inv.enqueue {conn n : ℕ} (h : s.Inv crc config (some (conn, n))) {topic : String}
    {partition : UInt32} {l : Lane} (hl : s.lanes topic partition = some l) {q : Sent}
    (hconn : q.conn = conn) (hindex : q.index = n) (hcame : s.CameFrom topic partition q)
    (hfresh : ∀ q' ∈ l.taken ++ l.queue, q'.conn = conn → q'.index < n) :
    Inv crc config none (s.setLane topic partition { l with queue := l.queue ++ [q] }) := by
  let l' : Lane := { l with queue := l.queue ++ [q] }
  have hqueue : l'.taken ++ l'.queue = l.taken ++ l.queue ++ [q] := (List.append_assoc ..).symm
  have htakes : s.Takes (s.setLane topic partition l') := takes_setLane hl List.prefix_rfl
  refine ⟨fun t p l₁ hl₁ => ?_, fun t p l₁ hl₁ => ?_, fun t p l₁ hl₁ q' hq => ?_,
    fun t p l₁ hl₁ => ?_, fun x hx => ?_, fun conn' a ha => ?_, ?_⟩
  · rcases lanes_setLane s l' hl₁ with ⟨-, -, rfl⟩ | hold
    · exact ⟨(h.lanes _ _ l hl).log, (h.lanes _ _ l hl).waits⟩
    · exact h.lanes t p l₁ hold
  · rcases lanes_setLane s l' hl₁ with ⟨rfl, rfl, -⟩ | hold
    · exact h.topics t p l hl
    · exact h.topics t p l₁ hold
  · rcases lanes_setLane s l' hl₁ with ⟨rfl, rfl, rfl⟩ | hold
    · rw [hqueue] at hq
      rcases List.mem_append.mp hq with hq | hq
      · exact h.origin t p l hl q' hq
      · rwa [List.mem_singleton.mp hq]
    · exact h.origin t p l₁ hold q' hq
  · rcases lanes_setLane s l' hl₁ with ⟨rfl, rfl, rfl⟩ | hold
    · rw [hqueue]
      refine List.pairwise_append.mpr ⟨h.order t p l hl, List.pairwise_singleton _ _, ?_⟩
      intro q' hq' q'' hq'' hsame
      rw [List.mem_singleton.mp hq''] at hsame ⊢
      rw [hindex]
      exact hfresh q' hq' (hsame.trans hconn)
    · exact h.order t p l₁ hold
  · obtain ⟨t, p, l₁, hl₁, hmem, hplaced⟩ := h.tasks x hx
    obtain ⟨l₂, hl₂, more, hmore⟩ := htakes t p l₁ hl₁
    refine ⟨t, p, l₂, hl₂, hmore ▸ List.mem_append_left _ hmem, fun base count hok => ?_⟩
    exact hmore ▸ (hplaced base count hok).mono more
  · exact (h.answers conn' a ha).later (fun _ => List.prefix_rfl) htakes
  · intro conn' n' corr t p acks epoch records hrequest hacks
    have hbefore := h.once conn' n' corr t p acks epoch records hrequest hacks
    rw [places] at hbefore
    have howed : (if some (conn, n) = some (conn', n') then 1 else 0) =
        if Is conn' n' q = true then 1 else 0 := by
      simp only [Is, decide_eq_true_eq, Option.some.injEq, Prod.mk.injEq, hconn, hindex]
    rw [howed] at hbefore
    simp only [reduceCtorEq, if_false, places]
    change (s.sessions conn').answers.countP (·.index = n') +
      s.tasks.countP (Is conn' n' ·.1) + ((s.setLane topic partition l').lanes t p).elim 0 _ + 0 = 1
    change (s.sessions conn').requests[n']? = _ at hrequest
    by_cases hthis : t = topic ∧ p = partition
    · obtain ⟨rfl, rfl⟩ := hthis
      rw [hl, Option.elim_some] at hbefore
      have hwaiting : l'.waiting = l.waiting := rfl
      rw [lanes_setLane_self, Option.elim_some, hwaiting, List.countP_append, List.countP_singleton]
      -- whoever asks is counted, and this one asks if it is the request at hand
      have hasks : (Is conn' n' q && q.asks) = Is conn' n' q := by
        cases his : Is conn' n' q with
        | false => rfl
        | true =>
          obtain ⟨hconn', hindex'⟩ := of_decide_eq_true his
          obtain ⟨records', hrequest', -⟩ := hcame
          rw [hconn', hindex', hrequest, Option.some.injEq, Prod.mk.injEq,
            Request.produce.injEq] at hrequest'
          rw [Bool.true_and, Sent.asks, ← hrequest'.2.2.2.1]
          exact decide_eq_true hacks
      rw [hasks]
      omega
    · have hother : Is conn' n' q = false := by
        rw [Bool.eq_false_iff]
        exact fun his => hthis (hcame.eq hrequest his)
      rw [show (s.setLane topic partition l').lanes t p = s.lanes t p from if_neg hthis]
      rw [hother, if_neg Bool.false_ne_true] at hbefore
      exact hbefore

/-- New partitions have nothing taken or queued. -/
theorem Inv.createTopic (hc : config.Valid) (h : s.Inv crc config owed) (topic : String)
    (partitions : UInt32) (clock : Clock) :
    Inv crc config owed (s.createTopic crc config topic partitions clock).2 := by
  rw [Pipelines.createTopic]
  split_ifs with hbad hexists
  · exact h
  · exact h
  have hnone (p : UInt32) : s.lanes topic p = none :=
    Option.eq_none_iff_forall_not_mem.mpr fun l hl => hexists (h.topics topic p l hl)
  set s' : Pipelines := { s with
    topics := s.topics.insert topic partitions.toNat
    lanes := fun topic' partition' =>
      if topic' = topic ∧ partition' < partitions then
        (Thread.spawn crc config clock .empty none).map fun thread => ⟨thread, [], [], []⟩
      else s.lanes topic' partition' } with hs'
  have hlanes {t : String} {p : UInt32} {l : Lane} (hl : s'.lanes t p = some l) :
      t = topic ∧ (∃ thread, Thread.spawn crc config clock .empty none = some thread ∧
        l = ⟨thread, [], [], []⟩) ∨ s.lanes t p = some l := by
    change (if t = topic ∧ p < partitions then _ else s.lanes t p) = some l at hl
    split_ifs at hl with hnew
    · obtain ⟨thread, hspawn, rfl⟩ := Option.map_eq_some_iff.mp hl
      exact .inl ⟨hnew.1, thread, hspawn, rfl⟩
    · exact .inr hl
  have htakes : s.Takes s' := by
    intro t p l hl
    refine ⟨l, ?_, List.prefix_rfl⟩
    have hother : ¬ (t = topic ∧ p < partitions) := by
      rintro ⟨rfl, -⟩
      rw [hnone p] at hl
      cases hl
    exact (if_neg hother).trans hl
  refine ⟨fun t p l hl => ?_, fun t p l hl => ?_, fun t p l hl q hq => ?_, fun t p l hl => ?_,
    fun x hx => ?_, fun conn a ha => (h.answers conn a ha).later (fun _ => List.prefix_rfl) htakes,
    ?_⟩
  · rcases hlanes hl with ⟨-, thread, hspawn, rfl⟩ | hold
    · obtain ⟨log, fs, hrun, hok⟩ := Storage.openDir_empty crc (Partition.logConfig_valid hc) clock
      rw [Thread.spawn, hrun] at hspawn
      obtain ⟨epochs, -, rfl⟩ := Option.map_eq_some_iff.mp hspawn
      exact ⟨⟨[], ⟨[], [], hok, rfl⟩, rfl⟩, .nil⟩
    · exact h.lanes t p l hold
  · refine (AList.mem_insert _).mpr ?_
    exact (hlanes hl).imp And.left (h.topics t p l)
  · rcases hlanes hl with ⟨-, thread, -, rfl⟩ | hold
    · cases hq
    · exact h.origin t p l hold q hq
  · rcases hlanes hl with ⟨-, thread, -, rfl⟩ | hold
    · exact .nil
    · exact h.order t p l hold
  · obtain ⟨t, p, l, hl, hmem, hplaced⟩ := h.tasks x hx
    obtain ⟨l', hl', more, hmore⟩ := htakes t p l hl
    refine ⟨t, p, l', hl', hmore ▸ List.mem_append_left _ hmem, fun base count hok => ?_⟩
    exact hmore ▸ (hplaced base count hok).mono more
  · intro conn n corr t p acks epoch records hrequest hacks
    have hlane (f : Lane → ℕ) (hf : ∀ thread, f ⟨thread, [], [], []⟩ = 0) :
        (s'.lanes t p).elim 0 f = (s.lanes t p).elim 0 f := by
      change (if t = topic ∧ p < partitions then _ else s.lanes t p).elim 0 f = _
      split_ifs with hnew
      · rw [hnew.1, hnone p]
        cases Thread.spawn crc config clock .empty none with
        | none => rfl
        | some thread => exact hf thread
      · rfl
    have hbefore := h.once conn n corr t p acks epoch records hrequest hacks
    change s'.places t p conn n + _ = 1
    rw [places] at hbefore ⊢
    rwa [hlane _ fun _ => rfl]

/-- The connection's task deals with what it has read. -/
theorem Inv.dispatch (hc : config.Valid) {conn n : ℕ} (h : s.Inv crc config (some (conn, n)))
    {corr : UInt32} {req : Request} (hrequest : (s.sessions conn).requests[n]? = some (corr, req))
    (hfresh : ∀ topic partition l, s.lanes topic partition = some l →
      ∀ q ∈ l.taken ++ l.queue, q.conn = conn → q.index < n) (clock : Clock) :
    Inv crc config none (s.dispatch crc config conn n corr clock req) := by
  have hother (hno : ∀ topic partition acks epoch records,
      req ≠ .produce topic partition acks epoch records) : s.Inv crc config none :=
    h.silent hrequest fun topic partition acks epoch records heq =>
      absurd heq (hno topic partition acks epoch records)
  -- a produce that is turned away is answered at once, if anybody waits
  have hturned {topic : String} {partition : UInt32} {acks : Proto.Acks} {epoch : UInt64}
      {records : List Proto.ProduceRecord}
      (hreq : req = .produce topic partition acks epoch records) (code : ErrorCode) :
      Inv crc config none
        (if acks = .none then s else s.respond conn n corr (produceResponse (.error code))) := by
    split_ifs with hacks
    · refine h.silent hrequest fun topic' partition' acks' epoch' records' heq => ?_
      rw [hreq, Request.produce.injEq] at heq
      exact heq.2.2.1 ▸ hacks
    · refine h.respond ⟨trivial, req, hrequest, fun _ _ _ _ _ _ => ⟨.error code, rfl, ?_⟩⟩
      exact fun _ _ hok => by cases hok
  cases req with
  | createTopic topic partitions replicationFactor =>
    rw [Pipelines.dispatch]
    have hcreated : Inv crc config (some (conn, n)) (if 1 < replicationFactor then
        (ErrorCode.malformed, s) else s.createTopic crc config topic partitions clock).2 := by
      split_ifs
      · exact h
      · exact h.createTopic hc topic partitions clock
    have hsessions : (if 1 < replicationFactor then (ErrorCode.malformed, s) else
        s.createTopic crc config topic partitions clock).2.sessions = s.sessions := by
      split_ifs
      · rfl
      · rw [Pipelines.createTopic]
        split_ifs <;> rfl
    refine hcreated.respond ⟨trivial, .createTopic topic partitions replicationFactor, ?_,
      fun _ _ _ _ _ heq => by cases heq⟩
    rw [hsessions]
    exact hrequest
  | produce topic partition acks epoch records =>
    rw [Pipelines.dispatch]
    by_cases hepoch : epoch ≠ 0
    · rw [if_pos hepoch]
      exact hturned rfl .fencedEpoch
    · rw [if_neg hepoch]
      cases hl : s.lanes topic partition with
      | none => exact hturned rfl .unknownTopicOrPartition
      | some l =>
        refine h.enqueue hl rfl rfl ⟨records, ?_, rfl⟩ (hfresh topic partition l hl)
        rw [← not_not.mp hepoch]
        exact hrequest
  | _ => exact hother fun _ _ _ _ _ heq => by cases heq

theorem Inv.step (hc : config.Valid) (h : s.Inv crc config none) {act : Action}
    (hroom : Room s act) (hstep : Pipelines.step crc config s act = some s') :
    s'.Inv crc config none := by
  cases act with
  | frame conn body clock =>
    rw [Pipelines.step] at hstep
    split_ifs at hstep with hclosed
    cases hdecode : decodeRequest body with
    | error e =>
      rw [hdecode] at hstep
      cases hstep
      exact h.setSession rfl rfl
    | ok r =>
      obtain ⟨corr, req⟩ := r
      rw [hdecode] at hstep
      cases hstep
      refine (h.read conn (corr, req)).dispatch hc ?_ (fun topic partition l hl q hq hconn => ?_)
        clock
      · rw [sessions_setSession, if_pos rfl]
        exact List.getElem?_concat_length
      · rw [← hconn]
        exact (h.origin topic partition l hl q hq).lt_length
  | hangUp conn =>
    cases hstep
    exact h.setSession rfl rfl
  | append topic partition clock now =>
    rw [Pipelines.step] at hstep
    cases hl : s.lanes topic partition with
    | none =>
      rw [hl] at hstep
      cases hstep
    | some l =>
      simp only [hl] at hstep
      cases hqueue : l.queue with
      | nil =>
        rw [hqueue] at hstep
        cases hstep
      | cons q queue =>
        rw [hqueue] at hstep
        cases hstep
        exact h.append hc hl hqueue (hroom l hl q (hqueue ▸ rfl)) clock now
  | timeout topic partition clock =>
    rw [Pipelines.step] at hstep
    cases hl : s.lanes topic partition with
    | none =>
      rw [hl] at hstep
      cases hstep
    | some l =>
      rw [hl] at hstep
      cases hstep
      exact h.timeout hl clock
  | answer k =>
    rw [Pipelines.step] at hstep
    cases hk : s.tasks[k]? with
    | none =>
      rw [hk] at hstep
      cases hstep
    | some x =>
      obtain ⟨q, result⟩ := x
      rw [hk] at hstep
      cases hstep
      refine (h.taskTaken hk).respond ?_
      obtain ⟨topic, partition, l, hl, htaken, hplaced⟩ := h.tasks _ (List.mem_of_getElem? hk)
      obtain ⟨records, hrequest, hrecords⟩ :=
        h.origin topic partition l hl q (List.mem_append_left _ htaken)
      refine ⟨produceResponse_fits result, _, hrequest,
        fun topic' partition' acks epoch records' heq => ?_⟩
      rw [Request.produce.injEq] at heq
      obtain ⟨rfl, rfl, -, -, rfl⟩ := heq
      exact ⟨result, rfl,
        fun base count hok => ⟨l, q, hl, rfl, rfl, hrecords, hplaced base count hok⟩⟩
  | write conn ok =>
    cases hstep
    obtain ⟨hrequests, hanswers⟩ := (s.sessions conn).write_requests ok
    exact h.setSession hrequests hanswers

theorem Inv.init (crc : List UInt8 → UInt32) (config : LogConfig) :
    Pipelines.init.Inv crc config none := by
  refine ⟨fun _ _ _ hl => ?_, fun _ _ _ hl => ?_, fun _ _ _ hl => ?_, fun _ _ _ hl => ?_,
    fun _ hx => ?_, fun _ _ ha => ?_, fun _ _ _ _ _ _ _ _ hrequest => ?_⟩
  · cases hl
  · cases hl
  · cases hl
  · cases hl
  · cases hx
  · cases ha
  · cases hrequest

private theorem reach_inv (hc : config.Valid) (h : Reach (step crc config) Room init s) :
    s.Inv crc config none :=
  h.invariant (Inv.init crc config) fun _ _ _ hinv hroom hstep => hinv.step hc hroom hstep

/-- The frame written for an answer says which request it belongs to. -/
theorem Answered.decode {conn : ℕ} {a : Answer} (h : s.Answered config conn a) :
    Proto.decodeResponse ((encodeResponse a.response a.corr).drop 4) =
      .ok (a.corr, a.response) := by
  obtain ⟨msgType, body, hframe, hreads⟩ := Proto.reads_encodeResponse a.response h.1
  rw [hframe, Proto.drop_frame]
  exact Proto.decode_payload hreads a.corr

/-- However the tasks of the connections and the threads of the partitions take turns:

* a partition's log holds what was written of the batches it took; these and those queued are
  requests that were read, and those of one connection are in the order in which it sent them;
* every frame written answers a request under its correlation id, and a produce that is answered
  without an error stands in the log as a whole, at the offset given;
* a produce that asks for a reply has it handed to the writer once, or its one answer is still under
  way;
* as long as no write has failed, the writer writes what it was handed, in that order. -/
theorem pipelines_in_order (hc : config.Valid) (h : Reach (step crc config) Room init s) :
    (∀ topic partition l, s.lanes topic partition = some l →
      (∃ rs, Represents crc (Partition.logConfig config) l.thread.state rs ∧
        rs.map keyValue = l.taken.flatMap (written config)) ∧
      (∀ q ∈ l.taken ++ l.queue, s.CameFrom topic partition q) ∧
      (l.taken ++ l.queue).Pairwise fun q q' => q.conn = q'.conn → q.index < q'.index) ∧
    (∀ conn, ∀ frame ∈ (s.sessions conn).frames, ∃ a ∈ (s.sessions conn).answers,
      Proto.decodeResponse (frame.drop 4) = .ok (a.corr, a.response) ∧
        s.Answered config conn a) ∧
    (∀ conn n corr topic partition acks epoch records,
      (s.sessions conn).requests[n]? = some (corr, .produce topic partition acks epoch records) →
        acks ≠ .none → s.places topic partition conn n = 1) ∧
    ∀ conn, (s.sessions conn).failed = false →
      ((Session.write true)^[(s.sessions conn).answers.length - (s.sessions conn).written]
        (s.sessions conn)).frames =
          (s.sessions conn).answers.map fun a => encodeResponse a.response a.corr := by
  have hinv := reach_inv hc h
  refine ⟨fun topic partition l hl => ?_, fun conn frame hframe => ?_, ?_,
    fun conn hwriter => Session.frames_writes hwriter⟩
  · exact ⟨(hinv.lanes topic partition l hl).log, hinv.origin topic partition l hl,
      hinv.order topic partition l hl⟩
  · obtain ⟨a, ha, rfl⟩ := List.mem_map.mp hframe
    have hmem := List.mem_of_mem_take ha
    have hanswered := hinv.answers conn a hmem
    exact ⟨a, hmem, hanswered.decode, hanswered⟩
  · intro conn n corr topic partition acks epoch records hrequest hacks
    have honce := hinv.once conn n corr topic partition acks epoch records hrequest hacks
    simpa only [reduceCtorEq, if_false, Nat.add_zero] using honce

/-! ### Two clients -/

def createBody : List UInt8 := (Proto.encodeRequest (.createTopic "t" 1 1) 1).drop 4

def produceBody (corr : UInt32) (acks : Proto.Acks) (value : UInt8) : List UInt8 :=
  (Proto.encodeRequest (.produce "t" 0 acks 0 [⟨none, [value]⟩]) corr).drop 4

/-- One client sends two durable produces and the other one between them. -/
def twoClients : List Action :=
  [.frame 0 createBody ⟨0, 0⟩, .frame 0 (produceBody 2 .durable 7) ⟨0, 0⟩,
    .frame 1 (produceBody 1 .written 8) ⟨0, 0⟩, .frame 0 (produceBody 3 .durable 9) ⟨0, 0⟩,
    .append "t" 0 (fun _ => ⟨0, 0⟩) 0, .append "t" 0 (fun _ => ⟨0, 0⟩) 0,
    .append "t" 0 (fun _ => ⟨0, 0⟩) 0, .timeout "t" 0 ⟨0, 50⟩, .answer 2, .write 0 true,
    .answer 1, .answer 0, .write 0 true, .write 0 false]

instance (s : Pipelines) (act : Action) : Decidable (s.Room act) := by
  cases act <;> (unfold Room; infer_instance)

/-- The produces are taken as they were sent, and answered as they are settled; the last write to the
first client fails. -/
theorem pipelines_in_order_twoClients : ∃ s l,
    Reach (step (fun _ => 0) Partition.batchConfig) Room init s ∧ s.lanes "t" 0 = some l ∧
      l.taken.map (fun q => (q.conn, q.index)) = [(0, 1), (1, 0), (0, 2)] ∧
      (s.sessions 0).answers.map (·.index) = [0, 2, 1] ∧ (s.sessions 0).frames.length = 2 ∧
      (∀ frame ∈ (s.sessions 0).frames, ∃ a ∈ (s.sessions 0).answers,
        Proto.decodeResponse (frame.drop 4) = .ok (a.corr, a.response)) ∧
      ∃ rs, Represents (fun _ => 0) (Partition.logConfig Partition.batchConfig) l.thread.state rs ∧
        rs.map keyValue = l.taken.flatMap (written Partition.batchConfig) := by
  obtain ⟨s, hreach, hlane, hanswers⟩ := Reach.exists_of_runSteps
    (step (fun _ => 0) Partition.batchConfig) Room init twoClients
    (fun s => ((s.lanes "t" 0).map fun l => l.taken.map fun q => (q.conn, q.index)) =
        some [(0, 1), (1, 0), (0, 2)] ∧ (s.sessions 0).answers.map (·.index) = [0, 2, 1] ∧
        (s.sessions 0).frames.length = 2)
    (by decide +kernel)
  obtain ⟨l, hl, htaken⟩ := Option.map_eq_some_iff.mp hlane
  obtain ⟨hlanes, hframes, -⟩ :=
    pipelines_in_order ((Storage.LogConfig.validate_eq_ok_iff _).mp rfl) hreach
  refine ⟨s, l, hreach, hl, htaken, hanswers.1, hanswers.2, fun frame hframe => ?_,
    (hlanes "t" 0 l hl).1⟩
  obtain ⟨a, ha, hdecode, -⟩ := hframes 0 frame hframe
  exact ⟨a, ha, hdecode⟩

end Pipelines
end Replog.Serving
