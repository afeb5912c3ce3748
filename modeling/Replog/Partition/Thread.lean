import Replog.Proto.Message
import Replog.Storage.EpochCheckpoint
import Replog.Storage.Log

/-!
# The writer thread of a partition

One thread owns the log of a partition and its epoch checkpoint and takes commands one by one. A
durable append is answered once a flush covers it: its reply waits in a queue until the durable
offset has passed its last record.
-/

namespace Replog.Partition
open Replog.Storage
open Replog.Proto (Acks ErrorCode)

abbrev KeyValue := Option (List UInt8) × List UInt8

/-- An append as the caller asked for it. -/
structure Produce where
  records : List KeyValue
  acks : Acks
  deriving DecidableEq

structure ReadOk where
  logStart : ℕ
  nextOffset : ℕ
  records : List Record
  deriving DecidableEq

inductive Cmd where
  /-- `answered` is whether the caller waits for a reply. -/
  | append (produce : Produce) (answered : Bool)
  | read (offset maxBytes : ℕ)
  | appendReplicated (records : List Record)
  | truncateTo (offset : ℕ)
  | recordEpoch (epoch : UInt64)
  | epochStatus
  | epochEndFor (epoch : UInt64)

inductive Reply where
  | append (produce : Produce) (result : Except ErrorCode (ℕ × ℕ))
  | read (result : Except ErrorCode ReadOk)
  | appendReplicated (result : Except ErrorCode ℕ)
  | truncateTo (result : Except ErrorCode ℕ)
  | epochStatus (currentEpoch logEnd : ℕ)
  | epochEndFor (endOffset : ℕ)

/-- An append that waits for its records to be durable. -/
structure Pending where
  lastOffset : ℕ
  baseOffset : ℕ
  count : ℕ
  produce : Produce

structure Thread where
  log : Log
  fs : Fs
  epochs : EpochCheckpoint
  epochFile : Option (List UInt8)
  pending : List Pending
  dirtySince : Option ℕ

def mapStorageErr : StorageError → ErrorCode
  | .offsetOutOfRange _ => .offsetOutOfRange
  | .recordTooLarge _ => .malformed
  | _ => .storage

/-- A panic ends the thread, and whoever waits for it gets a storage error. -/
def mapFailure : Failure → ErrorCode
  | .err e => mapStorageErr e
  | .panic => .storage

/-- Time-based flushing is left to the thread: inside the log only the byte trigger remains. -/
def logConfig (config : LogConfig) : LogConfig :=
  match config.fsync with
  | .batch maxBytes _ => { config with fsync := .batch maxBytes (2 ^ 64 - 1) }
  | _ => config

def batchMaxMs : FsyncPolicy → Option ℕ
  | .batch _ maxMs => some maxMs
  | _ => none

def isDirty (log : Log) : Bool :=
  0 < log.nextOffset && log.durableOffset ≠ some (log.nextOffset - 1)

namespace Thread

def state (t : Thread) : Log × Fs := (t.log, t.fs)

def withState (t : Thread) (s : Log × Fs) : Thread := { t with log := s.1, fs := s.2 }

section Commands

variable (crc : List UInt8 → UInt32)

/-- Opens what is there; a log or a checkpoint that cannot be opened is an error. -/
def spawn (config : LogConfig) (clock : Clock) (d : Dir) (epochFile : Option (List UInt8)) :
    Option Thread :=
  match (Log.openDir crc (logConfig config) clock).run ⟨d, [], []⟩ with
  | .ok log fs =>
    (EpochCheckpoint.load epochFile).map fun epochs =>
      { log, fs, epochs, epochFile, pending := [], dirtySince := none }
  | .error _ _ => none

/-! ## Appends -/

/-- How far an append has got: the offset of its first record, their number, and the error it
stopped at. -/
structure Progress where
  base : Option ℕ
  count : ℕ
  error : Option ErrorCode

/-- Appends record by record and stops at the first error. The clocks are read once for each. -/
def appendAll : List KeyValue → (ℕ → Clock) → Progress → Log × Fs → Progress × (Log × Fs)
  | [], _, p, s => (p, s)
  | (key, value) :: rest, clock, p, s =>
    match (Log.append crc (clock 0) key value).run s with
    | .ok info s' =>
      appendAll rest (fun i => clock (i + 1))
        { p with base := p.base.or (some info.offset), count := p.count + 1 } s'
    | .error e s' => ({ p with error := some (mapFailure e) }, s')

/-- Appends a leader's records as they are and stops at the first error. -/
def appendReplicatedAll : List Record → (ℕ → Clock) → Log × Fs → Option ErrorCode × (Log × Fs)
  | [], _, s => (none, s)
  | record :: rest, clock, s =>
    match (Log.appendReplicated crc (clock 0) record).run s with
    | .ok _ s' => appendReplicatedAll rest (fun i => clock (i + 1)) s'
    | .error e s' => (some (mapFailure e), s')

/-- Answers the appends at the front that are durable. -/
def drainPending (durable : Option ℕ) : List Pending → List Reply × List Pending
  | [] => ([], [])
  | p :: rest =>
    if durable.any (p.lastOffset ≤ ·) then
      ((.append p.produce (.ok (p.baseOffset, p.count))) :: (drainPending durable rest).1,
        (drainPending durable rest).2)
    else ([], p :: rest)

def drain (t : Thread) : List Reply × Thread :=
  let r := drainPending t.log.durableOffset t.pending
  (r.1, { t with pending := r.2 })

def refreshDirty (now : ℕ) (t : Thread) : Thread :=
  { t with dirtySince := if isDirty t.log then t.dirtySince.or (some now) else none }

/-- Whether an append whose last record is at `last` is answered right away. A broker that never
flushes cannot promise more than that the records are written. -/
def ackedNow (policy : FsyncPolicy) (durable : Option ℕ) (last : ℕ) : Acks → Bool
  | .none | .written => true
  | .durable | .all => policy = .os || durable.any (last ≤ ·)

/-- The reply to an append that has got as far as `p`, or its place in the queue. -/
def answerAppend (policy : FsyncPolicy) (produce : Produce) (p : Progress) (t : Thread) :
    List Reply × Thread :=
  match p.error, p.base with
  | some code, _ => ([.append produce (.error code)], t)
  | none, none => ([.append produce (.ok (t.log.nextOffset, 0))], t)
  | none, some base =>
    let last := t.log.nextOffset - 1
    if ackedNow policy t.log.durableOffset last produce.acks then
      ([.append produce (.ok (base, p.count))], t)
    else
      ([], { t with pending := t.pending ++
        [{ lastOffset := last, baseOffset := base, count := p.count, produce }] })

def append (policy : FsyncPolicy) (produce : Produce) (answered : Bool) (clock : ℕ → Clock)
    (now : ℕ) (t : Thread) : List Reply × Thread :=
  let (p, s) := appendAll crc produce.records clock ⟨none, 0, none⟩ t.state
  let t := (t.withState s).refreshDirty now
  let (out, t) := if answered then answerAppend policy produce p t else ([], t)
  let (drained, t) := t.drain
  (out ++ drained, t)

/-! ## The other commands -/

def flush (clock : Clock) (t : Thread) : List Reply × Thread :=
  match (Log.flush clock).run t.state with
  | .ok _ s => drain { t.withState s with dirtySince := none }
  | .error _ s => ([], t.withState s)

def read (offset maxBytes : ℕ) (t : Thread) : List Reply × Thread :=
  match (Log.read crc offset maxBytes).run t.state with
  | .ok records s =>
    ([.read (.ok ⟨t.log.startOffset, t.log.nextOffset, records⟩)], t.withState s)
  | .error e s => ([.read (.error (mapFailure e))], t.withState s)

def appendReplicated (records : List Record) (clock : ℕ → Clock) (now : ℕ) (t : Thread) :
    List Reply × Thread :=
  let (error, s) := appendReplicatedAll crc records clock t.state
  let t := (t.withState s).refreshDirty now
  ([.appendReplicated (match error with
    | some code => .error code
    | none => .ok t.log.nextOffset)], t)

/-- Drops the checkpoint entries past a new end of the log; the file is replaced if any goes. -/
def truncateEpochs (offset : ℕ) (t : Thread) : Thread :=
  let epochs := t.epochs.truncateTo offset
  if epochs = t.epochs then t else { t with epochs, epochFile := some epochs.encode }

/-- First the log is cut, then the checkpoint. -/
def truncateTo (offset : ℕ) (t : Thread) : List Reply × Thread :=
  match (Log.truncateSuffix crc offset).run t.state with
  | .ok _ s =>
    let t := (t.withState s).truncateEpochs offset
    ([.truncateTo (.ok t.log.nextOffset)], t)
  | .error e s => ([.truncateTo (.error (mapFailure e))], t.withState s)

/-- Records that a new epoch starts at the end of the log. An entry that does not follow the last
one is reported on the console and dropped. -/
def recordEpoch (epoch : UInt64) (t : Thread) : Thread :=
  if t.epochs.currentEpoch < epoch.toNat then
    match t.epochs.append epoch.toNat t.log.nextOffset with
    | some epochs =>
      { t with
        epochs
        epochFile := some (t.epochFile.getD [] ++
          EpochCheckpoint.encodeEntry (epoch.toNat, t.log.nextOffset)) }
    | none => t
  else t

def handle (policy : FsyncPolicy) (cmd : Cmd) (clock : ℕ → Clock) (now : ℕ) (t : Thread) :
    List Reply × Thread :=
  match cmd with
  | .append produce answered => t.append crc policy produce answered clock now
  | .read offset maxBytes => t.read crc offset maxBytes
  | .appendReplicated records => t.appendReplicated crc records clock now
  | .truncateTo offset => t.truncateTo crc offset
  | .recordEpoch epoch => ([], t.recordEpoch epoch)
  | .epochStatus => ([.epochStatus t.epochs.currentEpoch t.log.nextOffset], t)
  | .epochEndFor epoch => ([.epochEndFor (t.epochs.endOffsetFor epoch.toNat t.log.nextOffset)], t)

/-- No command came in time: what has been dirty for long enough is flushed. -/
def timeout (policy : FsyncPolicy) (clock : Clock) (t : Thread) : List Reply × Thread :=
  match t.dirtySince, batchMaxMs policy with
  | some since, some maxMs =>
    if maxMs ≤ clock.instantMs - since then t.flush clock else ([], t)
  | _, _ => ([], t)

end Commands
end Thread
end Replog.Partition
