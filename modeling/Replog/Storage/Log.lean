import Replog.Storage.Segment
import Mathlib.Data.List.Sort

/-!
# The log of one partition

A directory of segments, exactly one of them active. Instants are milliseconds of a
monotonic clock, and a wall clock stamps the records.
-/

namespace Replog.Storage

/-- What the two clocks show while a call runs. -/
structure Clock where
  wallMs : Int64
  instantMs : ℕ
  deriving DecidableEq

structure Log where
  config : LogConfig
  /-- The rolled segments, ascending by base. -/
  closed : List Segment
  active : Segment
  durableOffset : Option ℕ
  dirtyBytes : ℕ
  lastFlush : ℕ

structure AppendInfo where
  offset : ℕ
  durableOffset : Option ℕ
  deriving DecidableEq

abbrev LogM := MethodM Log

namespace Log

/-- `n - 1`, or `none` for zero. -/
def checkedPred : ℕ → Option ℕ
  | 0 => none
  | n + 1 => some n

/-- Inserts a segment under its base offset, replacing one with the same base. -/
def insertClosed (seg : Segment) : List Segment → List Segment
  | [] => [seg]
  | s :: rest =>
    if seg.baseOffset < s.baseOffset then seg :: s :: rest
    else if seg.baseOffset = s.baseOffset then seg :: rest
    else s :: insertClosed seg rest

def removeClosed (base : ℕ) (closed : List Segment) : List Segment :=
  closed.filter fun s => s.baseOffset ≠ base

/-- The last closed segment whose base satisfies `p`. -/
def lastClosed (p : ℕ → Prop) [DecidablePred p] (closed : List Segment) : Option Segment :=
  closed.reverse.find? fun s => p s.baseOffset

def startOffset (log : Log) : ℕ :=
  match log.closed with
  | [] => log.active.baseOffset
  | s :: _ => s.baseOffset

def nextOffset (log : Log) : ℕ := log.active.nextOffset

section Open

variable (crc : List UInt8 → UInt32) (config : LogConfig)

/-- A segment has to start where the one before it ended. -/
def checkBase (base : ℕ) : Option ℕ → FsM Unit
  | some expected => if base ≠ expected then FsM.fail (.segmentGap base expected) else pure ()
  | none => pure ()

/-- Recovers the segments in base order; the last base is the active one. -/
def recoverAll : List ℕ → Option ℕ → List Segment → FsM (List Segment × Option Segment)
  | [], _, closed => pure (closed, none)
  | base :: rest, expectedBase, closed => do
    let isLast := rest.isEmpty
    let seg ← Segment.recover crc config base isLast
    checkBase base expectedBase
    if isLast then return (closed, some seg)
    else recoverAll rest (some seg.nextOffset) (insertClosed seg closed)

/-- `Log::open` on a directory whose `.log` names all parse. -/
def openDir (clock : Clock) : FsM Log := do
  match config.validate with
  | .error e => FsM.fail e
  | .ok () => pure ()
  let bases := (← get).dir.logs.keys.insertionSort (· ≤ ·)
  if bases.isEmpty then
    let active ← Segment.create 0
    return {
      config, closed := [], active, durableOffset := none, dirtyBytes := 0
      lastFlush := clock.instantMs }
  let (closed, active) ← recoverAll crc config bases none []
  match active with
  | none => throw .panic
  | some active =>
    return {
      config, closed, active
      -- everything that survived recovery is taken as the recovery point
      durableOffset := checkedPred active.nextOffset
      dirtyBytes := 0
      lastFlush := clock.instantMs }

end Open

/-- Forces everything appended so far to stable storage. -/
def flush (clock : Clock) : LogM (Option ℕ) := do
  MethodM.onFs (← MethodM.self).active.flush
  MethodM.modifySelf fun log => { log with
    durableOffset := checkedPred log.active.nextOffset
    dirtyBytes := 0
    lastFlush := clock.instantMs }
  return (← MethodM.self).durableOffset

/-- Rolling fsyncs the outgoing segment first: recovery trusts rolled segments. -/
def roll (clock : Clock) : LogM Unit := do
  let _ ← flush clock
  let newSegment ← MethodM.onFs (Segment.create (← MethodM.self).active.nextOffset)
  MethodM.modifySelf fun log => { log with
    closed := insertClosed log.active log.closed
    active := newSegment }

variable (crc : List UInt8 → UInt32)

/-- Whether the fsync policy asks for a flush after an append. -/
def flushDue (clock : Clock) (log : Log) : Bool :=
  match log.config.fsync with
  | .always => true
  | .batch maxBytes maxMs =>
    maxBytes ≤ log.dirtyBytes || maxMs ≤ clock.instantMs - log.lastFlush
  | .os => false

/-- Whether a record of `encodedLen` bytes goes into a new segment. -/
def rollDue (log : Log) (encodedLen : ℕ) : Bool :=
  0 < log.active.size && log.config.maxSegmentBytes < log.active.size + encodedLen

/-- The second half of `appendRecord`, on the segment that takes the record. -/
def writeRecord (clock : Clock) (record : Record) : LogM AppendInfo := do
  let log ← MethodM.self
  let written ← MethodM.onField Log.active (fun seg log => { log with active := seg })
    (Segment.append crc log.config record)
  MethodM.modifySelf fun log => { log with dirtyBytes := log.dirtyBytes + written }
  if (← MethodM.self).flushDue clock then
    let _ ← flush clock
  return { offset := record.offset, durableOffset := (← MethodM.self).durableOffset }

def appendRecord (clock : Clock) (record : Record) : LogM AppendInfo := do
  let log ← MethodM.self
  if log.config.maxRecordBytes < record.encodedLen then
    MethodM.onFs (FsM.fail (.recordTooLarge record.encodedLen))
  if log.rollDue record.encodedLen then
    roll clock
  writeRecord crc clock record

def append (clock : Clock) (key : Option (List UInt8)) (value : List UInt8) :
    LogM AppendInfo := do
  appendRecord crc clock {
    offset := (← MethodM.self).active.nextOffset
    timestampMs := clock.wallMs
    key
    value }

/-- Appends a record fetched from a leader, preserving its offset and timestamp. -/
def appendReplicated (clock : Clock) (record : Record) : LogM AppendInfo := do
  let log ← MethodM.self
  if record.offset ≠ log.nextOffset then
    MethodM.onFs (FsM.fail (.replicatedGap record.offset log.nextOffset))
  appendRecord crc clock record

/-- Reads records starting at `offset`; a read never crosses a segment boundary. -/
def read (offset maxBytes : ℕ) : LogM (List Record) := do
  let log ← MethodM.self
  if offset < log.startOffset ∨ log.nextOffset < offset then
    MethodM.onFs (FsM.fail (.offsetOutOfRange offset))
  else if offset = log.nextOffset then return []
  else if log.active.baseOffset ≤ offset then
    MethodM.onFs (log.active.readFrom crc log.config offset maxBytes)
  else
    match lastClosed (· ≤ offset) log.closed with
    | none => throw .panic
    | some seg => MethodM.onFs (seg.readFrom crc log.config offset maxBytes)

/-- The base of the segment that keeps the tail when the log is cut to `newNext`. -/
def truncateTarget (log : Log) (newNext : ℕ) : Option ℕ :=
  if newNext = log.startOffset then some log.startOffset
  else if log.active.baseOffset < newNext then some log.active.baseOffset
  else (lastClosed (· < newNext) log.closed).map Segment.baseOffset

/-- Removes the closed segments with the given bases, two files each. -/
def removeDoomed : List ℕ → LogM Unit
  | [] => pure ()
  | base :: rest => do
    MethodM.modifySelf fun log => { log with closed := removeClosed base log.closed }
    MethodM.onFs (FsM.removeLog base)
    MethodM.onFs (FsM.removeIndex base)
    removeDoomed rest

/-- What stays durable once the log ends at `newNext`. -/
def durableBelow (newNext : ℕ) (durableOffset : Option ℕ) : Option ℕ :=
  match durableOffset, checkedPred newNext with
  | some durable, some last => some (min durable last)
  | _, _ => none

/-- Cuts the target segment's file before `newNext` and makes the segment the active one. -/
def rebuildAt (target : Segment) (newNext : ℕ) : LogM Unit := do
  let log ← MethodM.self
  let targetBase := target.baseOffset
  let position ← MethodM.onFs (target.positionOf crc log.config newNext)
  let _ ← MethodM.onFs (FsM.readLog targetBase)
  MethodM.onFs (FsM.perform (.setLen targetBase position))
  MethodM.onFs (FsM.perform (.fsyncLog targetBase))
  let rebuilt ← MethodM.onFs (Segment.recover crc log.config targetBase true)
  MethodM.modifySelf fun log => { log with
    closed := removeClosed targetBase log.closed
    active := rebuilt
    durableOffset := durableBelow newNext log.durableOffset }

/-- Removes every segment after the target, then cuts the target. -/
def cutTo (targetBase newNext : ℕ) : LogM Unit := do
  let log ← MethodM.self
  removeDoomed ((log.closed.map Segment.baseOffset).filter (targetBase < ·))
  if log.active.baseOffset = targetBase then
    rebuildAt crc log.active newNext
  else
    MethodM.onFs (FsM.removeLog log.active.baseOffset)
    MethodM.onFs (FsM.removeIndex log.active.baseOffset)
    match (← MethodM.self).closed.find? (·.baseOffset = targetBase) with
    | none => throw .panic
    | some target => rebuildAt crc target newNext

/-- Truncates the log so that `newNext` becomes the next offset. -/
def truncateSuffix (newNext : ℕ) : LogM Unit := do
  let log ← MethodM.self
  if log.nextOffset ≤ newNext then return ()
  else if newNext < log.startOffset then
    MethodM.onFs (FsM.fail (.offsetOutOfRange newNext))
  else
    match log.truncateTarget newNext with
    | none => throw .panic
    | some targetBase => cutTo crc targetBase newNext

end Log
end Replog.Storage
