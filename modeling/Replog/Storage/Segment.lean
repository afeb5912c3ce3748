import Replog.Storage.Index

/-!
# Segments

A segment is a run of encoded records in one `.log` file. Recovery scans the file record by
record; only in the newest segment may it cut an invalid tail off. Reading and locating an
offset start at the nearest index entry and decode forward.
-/

namespace Replog.Storage

structure Segment where
  baseOffset : ℕ
  index : SparseIndex
  nextOffset : ℕ
  size : ℕ
  bytesSinceIndex : ℕ
  deriving DecidableEq

namespace Segment

def create (baseOffset : ℕ) : FsM Segment := do
  FsM.createNewLog baseOffset
  let index ← SparseIndex.create baseOffset
  return { baseOffset, index, nextOffset := baseOffset, size := 0, bytesSinceIndex := 0 }

/-- The variables of the recovery loop. -/
structure Scan where
  index : SparseIndex
  nextOffset : ℕ
  bytesSinceIndex : ℕ
  validEnd : ℕ
  deriving DecidableEq

variable (crc : List UInt8 → UInt32) (config : LogConfig)

/-- The recovery loop over the bytes not yet decoded. Every record consumes bytes, so fuel
above their number never runs out. Offsets are counted without a limit here; the source's addition
overflows where the next one is `2 ^ 64`. -/
def scan (baseOffset : ℕ) (truncateTornTail rebuild : Bool) :
    ℕ → List UInt8 → Scan → FsM Scan
  | 0, _, st => pure st
  | fuel + 1, buf, st =>
    match Record.decode crc buf config.maxRecordBytes with
    | .record record consumed =>
      if record.offset ≠ st.nextOffset then
        FsM.fail (.corrupt record.offset st.validEnd (.offsetDiscontinuity st.nextOffset))
      else do
        let st ← if rebuild = true ∧ config.indexIntervalBytes ≤ st.bytesSinceIndex then do
            let index ← st.index.append baseOffset (u32 (record.offset - baseOffset))
              (u32 st.validEnd)
            pure { st with index, bytesSinceIndex := 0 }
          else pure st
        scan baseOffset truncateTornTail rebuild fuel (buf.drop consumed)
          { st with
            bytesSinceIndex := st.bytesSinceIndex + consumed
            nextOffset := st.nextOffset + 1
            validEnd := st.validEnd + consumed }
    | .incomplete =>
      if buf = [] ∨ truncateTornTail = true then pure st
      else FsM.fail (.corrupt st.nextOffset st.validEnd .incompleteInRolledSegment)
    | .corrupt reason =>
      if truncateTornTail then pure st
      else FsM.fail (.corrupt st.nextOffset st.validEnd reason)

/-- Where a recovery starts: the index to go on with, the position and offset to scan from,
and whether the scan rebuilds the index. -/
def recoverStart (baseOffset : ℕ) (truncateTornTail : Bool) :
    FsM (SparseIndex × ℕ × ℕ × Bool) :=
  if truncateTornTail then do
    return (← SparseIndex.create baseOffset, 0, baseOffset, true)
  else do
    match ← SparseIndex.load baseOffset with
    | some idx =>
      match idx.last with
      | some (rel, pos) => return (idx, pos, baseOffset + rel, false)
      | none => return (idx, 0, baseOffset, false)
    | none => return (← SparseIndex.create baseOffset, 0, baseOffset, true)

/-- Cuts the bytes past `validEnd` off, durably. -/
def cutTail (baseOffset validEnd fileLen : ℕ) : FsM Unit :=
  if validEnd < fileLen then do
    FsM.perform (.setLen baseOffset validEnd)
    FsM.perform (.fsyncLog baseOffset)
  else pure ()

/-- Reopens a segment, validating its contents. `truncateTornTail` is set only for the newest
segment: an invalid tail there is cut off, in a rolled segment it is an error. -/
def recover (baseOffset : ℕ) (truncateTornTail : Bool) : FsM Segment := do
  let (index, scanPos, scanOffset, rebuild) ← recoverStart baseOffset truncateTornTail
  let file ← FsM.readLog baseOffset
  let capacity ← FsM.checkedSub file.bytes.length scanPos
  let st ← scan crc config baseOffset truncateTornTail rebuild (capacity + 1)
    (file.bytes.drop scanPos)
    { index, nextOffset := scanOffset, bytesSinceIndex := 0, validEnd := scanPos }
  cutTail baseOffset st.validEnd file.bytes.length
  return {
    baseOffset
    index := st.index
    nextOffset := st.nextOffset
    size := st.validEnd
    bytesSinceIndex := st.bytesSinceIndex }

/-- Appends an encoded record; returns the bytes written. -/
def append (record : Record) : MethodM Segment ℕ := do
  let buf := record.encode crc
  let seg ← MethodM.self
  if config.indexIntervalBytes ≤ seg.bytesSinceIndex then
    let index ← MethodM.onFs (seg.index.append seg.baseOffset
      (u32 (record.offset - seg.baseOffset)) (u32 seg.size))
    MethodM.modifySelf fun s => { s with index, bytesSinceIndex := 0 }
  MethodM.onFs (FsM.perform (.writeLog seg.baseOffset buf))
  MethodM.modifySelf fun s => { s with
    size := s.size + buf.length
    bytesSinceIndex := s.bytesSinceIndex + buf.length
    nextOffset := s.nextOffset + 1 }
  return buf.length

def flush (seg : Segment) : FsM Unit := FsM.perform (.fsyncLog seg.baseOffset)

/-- The position to start decoding from on the way to `offset`. -/
def startPos (seg : Segment) (offset : ℕ) : ℕ :=
  ((seg.index.lookup (u32 (offset - seg.baseOffset))).map Prod.snd).getD 0

/-- The bytes from `startPos` up to the committed size. -/
def committedFrom (seg : Segment) (startPos : ℕ) : FsM (List UInt8) := do
  let file ← FsM.readLog seg.baseOffset
  let limit ← FsM.checkedSub seg.size startPos
  return (file.bytes.drop startPos).take limit

/-- The read loop: `pos` bytes are decoded, `out` holds the records taken so far. -/
def readLoop (seg : Segment) (offset maxBytes startPos : ℕ) :
    ℕ → List UInt8 → ℕ → List Record → ℕ → FsM (List Record)
  | 0, _, _, out, _ => pure out
  | fuel + 1, buf, pos, out, outBytes =>
    match Record.decode crc buf config.maxRecordBytes with
    | .record record consumed =>
      if record.offset < offset then
        readLoop seg offset maxBytes startPos fuel (buf.drop consumed) (pos + consumed) out
          outBytes
      else if out ≠ [] ∧ maxBytes < outBytes + consumed then pure out
      else if maxBytes ≤ outBytes + consumed then pure (out ++ [record])
      else
        readLoop seg offset maxBytes startPos fuel (buf.drop consumed) (pos + consumed)
          (out ++ [record]) (outBytes + consumed)
    | .incomplete => pure out
    | .corrupt reason => FsM.fail (.corrupt seg.nextOffset (startPos + pos) reason)

/-- Reads records starting at `offset`, up to roughly `maxBytes` of encoded records, always
at least one. -/
def readFrom (seg : Segment) (offset maxBytes : ℕ) : FsM (List Record) :=
  if offset < seg.baseOffset ∨ seg.nextOffset ≤ offset then pure []
  else do
    let start := seg.startPos offset
    let buf ← seg.committedFrom start
    readLoop crc config seg offset maxBytes start (buf.length + 1) buf 0 [] 0

def positionLoop (offset startPos : ℕ) : ℕ → List UInt8 → ℕ → FsM ℕ
  | 0, _, pos => FsM.fail (.corrupt offset (startPos + pos) .offsetNotFound)
  | fuel + 1, buf, pos =>
    match Record.decode crc buf config.maxRecordBytes with
    | .record record consumed =>
      if record.offset = offset then pure (startPos + pos)
      else positionLoop offset startPos fuel (buf.drop consumed) (pos + consumed)
    | _ => FsM.fail (.corrupt offset (startPos + pos) .offsetNotFound)

/-- Byte position where `offset` starts in this segment's file (`size` for the position just
past the last record). -/
def positionOf (seg : Segment) (offset : ℕ) : FsM ℕ :=
  if offset < seg.baseOffset ∨ seg.nextOffset < offset then FsM.fail (.offsetOutOfRange offset)
  else if offset = seg.nextOffset then pure seg.size
  else do
    let start := seg.startPos offset
    let buf ← seg.committedFrom start
    positionLoop crc config offset start (buf.length + 1) buf 0

end Segment
end Replog.Storage
