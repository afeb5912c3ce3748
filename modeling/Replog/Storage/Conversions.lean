import Replog.Storage.LogShape

/-!
# Conversions to `u32`

The index counts offsets and positions in `u32`, the log in `u64`. Below, the functions of segments
and logs once more, each with a parameter for what happens to a number on its way to a `u32`. With
the cast of the code they are those functions again. A conversion that may do anything above the
range of a `u32` shows that no number there is ever converted. Both stand side by side so that the
functions of `Segment` and `Log` read like the code, without the parameter.
-/

namespace Replog.Storage
open Replog.Library

/-- What the code does to a number where it says `as u32`. -/
def castU32 (n : ℕ) : FsM ℕ := pure (u32 n)

/-- A conversion that leaves the numbers alone that fit. -/
def ConvExact (conv : ℕ → FsM ℕ) : Prop := ∀ n < 2 ^ 32, conv n = pure n

section Via

variable (conv : ℕ → FsM ℕ) (crc : List UInt8 → UInt32)

namespace Segment

variable (config : LogConfig)

def scanVia (baseOffset : ℕ) (truncateTornTail rebuild : Bool) :
    ℕ → List UInt8 → Scan → FsM Scan
  | 0, _, st => pure st
  | fuel + 1, buf, st =>
    match Record.decode crc buf config.maxRecordBytes with
    | .record record consumed =>
      if record.offset ≠ st.nextOffset then
        FsM.fail (.corrupt record.offset st.validEnd (.offsetDiscontinuity st.nextOffset))
      else do
        let st ← if rebuild = true ∧ config.indexIntervalBytes ≤ st.bytesSinceIndex then do
            let rel ← conv (record.offset - baseOffset)
            let position ← conv st.validEnd
            let index ← st.index.append baseOffset rel position
            pure { st with index, bytesSinceIndex := 0 }
          else pure st
        scanVia baseOffset truncateTornTail rebuild fuel (buf.drop consumed)
          { st with
            bytesSinceIndex := st.bytesSinceIndex + consumed
            nextOffset := st.nextOffset + 1
            validEnd := st.validEnd + consumed }
    | .incomplete =>
      if buf = [] ∨ truncateTornTail = true then pure st
      else FsM.fail (.corrupt st.nextOffset st.validEnd .incompleteInRolledSegment)
    | .corrupt reason =>
      if truncateTornTail then pure st
      else FsM.fail (.corrupt st.nextOffset st.validEnd reason)

def recoverVia (baseOffset : ℕ) (truncateTornTail : Bool) : FsM Segment := do
  let (index, scanPos, scanOffset, rebuild) ← recoverStart baseOffset truncateTornTail
  let file ← FsM.readLog baseOffset
  let capacity ← FsM.checkedSub file.bytes.length scanPos
  let st ← scanVia conv crc config baseOffset truncateTornTail rebuild (capacity + 1)
    (file.bytes.drop scanPos)
    { index, nextOffset := scanOffset, bytesSinceIndex := 0, validEnd := scanPos }
  cutTail baseOffset st.validEnd file.bytes.length
  return {
    baseOffset
    index := st.index
    nextOffset := st.nextOffset
    size := st.validEnd
    bytesSinceIndex := st.bytesSinceIndex }

def appendVia (record : Record) : MethodM Segment ℕ := do
  let buf := record.encode crc
  let seg ← MethodM.self
  if config.indexIntervalBytes ≤ seg.bytesSinceIndex then
    let rel ← MethodM.onFs (conv (record.offset - seg.baseOffset))
    let position ← MethodM.onFs (conv seg.size)
    let index ← MethodM.onFs (seg.index.append seg.baseOffset rel position)
    MethodM.modifySelf fun s => { s with index, bytesSinceIndex := 0 }
  MethodM.onFs (FsM.perform (.writeLog seg.baseOffset buf))
  MethodM.modifySelf fun s => { s with
    size := s.size + buf.length
    bytesSinceIndex := s.bytesSinceIndex + buf.length
    nextOffset := s.nextOffset + 1 }
  return buf.length

def startPosVia (seg : Segment) (offset : ℕ) : FsM ℕ := do
  let rel ← conv (offset - seg.baseOffset)
  return ((seg.index.lookup rel).map Prod.snd).getD 0

def readFromVia (seg : Segment) (offset maxBytes : ℕ) : FsM (List Record) :=
  if offset < seg.baseOffset ∨ seg.nextOffset ≤ offset then pure []
  else do
    let start ← seg.startPosVia conv offset
    let buf ← seg.committedFrom start
    readLoop crc config seg offset maxBytes start (buf.length + 1) buf 0 [] 0

def positionOfVia (seg : Segment) (offset : ℕ) : FsM ℕ :=
  if offset < seg.baseOffset ∨ seg.nextOffset < offset then FsM.fail (.offsetOutOfRange offset)
  else if offset = seg.nextOffset then pure seg.size
  else do
    let start ← seg.startPosVia conv offset
    let buf ← seg.committedFrom start
    positionLoop crc config offset start (buf.length + 1) buf 0

end Segment

namespace Log

section Open

variable (config : LogConfig)

def recoverAllVia : List ℕ → Option ℕ → List Segment → FsM (List Segment × Option Segment)
  | [], _, closed => pure (closed, none)
  | base :: rest, expectedBase, closed => do
    let isLast := rest.isEmpty
    let seg ← Segment.recoverVia conv crc config base isLast
    checkBase base expectedBase
    if isLast then return (closed, some seg)
    else recoverAllVia rest (some seg.nextOffset) (insertClosed seg closed)

def openDirVia (clock : Clock) : FsM Log := do
  match config.validate with
  | .error e => FsM.fail e
  | .ok () => pure ()
  let bases := (← get).dir.logs.keys.insertionSort (· ≤ ·)
  if bases.isEmpty then
    let active ← Segment.create 0
    return {
      config, closed := [], active, durableOffset := none, dirtyBytes := 0
      lastFlush := clock.instantMs }
  let (closed, active) ← recoverAllVia conv crc config bases none []
  match active with
  | none => throw .panic
  | some active =>
    return {
      config, closed, active
      durableOffset := checkedPred active.nextOffset
      dirtyBytes := 0
      lastFlush := clock.instantMs }

end Open

def writeRecordVia (clock : Clock) (record : Record) : LogM AppendInfo := do
  let log ← MethodM.self
  let written ← MethodM.onField Log.active (fun seg log => { log with active := seg })
    (Segment.appendVia conv crc log.config record)
  MethodM.modifySelf fun log => { log with dirtyBytes := log.dirtyBytes + written }
  if (← MethodM.self).flushDue clock then
    let _ ← flush clock
  return { offset := record.offset, durableOffset := (← MethodM.self).durableOffset }

def appendRecordVia (clock : Clock) (record : Record) : LogM AppendInfo := do
  let log ← MethodM.self
  if log.config.maxRecordBytes < record.encodedLen then
    MethodM.onFs (FsM.fail (.recordTooLarge record.encodedLen))
  if log.rollDue record.encodedLen then
    roll clock
  writeRecordVia conv crc clock record

def appendVia (clock : Clock) (key : Option (List UInt8)) (value : List UInt8) :
    LogM AppendInfo := do
  appendRecordVia conv crc clock {
    offset := (← MethodM.self).active.nextOffset
    timestampMs := clock.wallMs
    key
    value }

def appendReplicatedVia (clock : Clock) (record : Record) : LogM AppendInfo := do
  let log ← MethodM.self
  if record.offset ≠ log.nextOffset then
    MethodM.onFs (FsM.fail (.replicatedGap record.offset log.nextOffset))
  appendRecordVia conv crc clock record

def readVia (offset maxBytes : ℕ) : LogM (List Record) := do
  let log ← MethodM.self
  if offset < log.startOffset ∨ log.nextOffset < offset then
    MethodM.onFs (FsM.fail (.offsetOutOfRange offset))
  else if offset = log.nextOffset then return []
  else if log.active.baseOffset ≤ offset then
    MethodM.onFs (log.active.readFromVia conv crc log.config offset maxBytes)
  else
    match lastClosed (· ≤ offset) log.closed with
    | none => throw .panic
    | some seg => MethodM.onFs (seg.readFromVia conv crc log.config offset maxBytes)

def rebuildAtVia (target : Segment) (newNext : ℕ) : LogM Unit := do
  let log ← MethodM.self
  let targetBase := target.baseOffset
  let position ← MethodM.onFs (target.positionOfVia conv crc log.config newNext)
  let _ ← MethodM.onFs (FsM.readLog targetBase)
  MethodM.onFs (FsM.perform (.setLen targetBase position))
  MethodM.onFs (FsM.perform (.fsyncLog targetBase))
  let rebuilt ← MethodM.onFs (Segment.recoverVia conv crc log.config targetBase true)
  MethodM.modifySelf fun log => { log with
    closed := removeClosed targetBase log.closed
    active := rebuilt
    durableOffset := durableBelow newNext log.durableOffset }

def cutToVia (targetBase newNext : ℕ) : LogM Unit := do
  let log ← MethodM.self
  removeDoomed ((log.closed.map Segment.baseOffset).filter (targetBase < ·))
  if log.active.baseOffset = targetBase then
    rebuildAtVia conv crc log.active newNext
  else
    MethodM.onFs (FsM.removeLog log.active.baseOffset)
    MethodM.onFs (FsM.removeIndex log.active.baseOffset)
    match (← MethodM.self).closed.find? (·.baseOffset = targetBase) with
    | none => throw .panic
    | some target => rebuildAtVia conv crc target newNext

def truncateSuffixVia (newNext : ℕ) : LogM Unit := do
  let log ← MethodM.self
  if log.nextOffset ≤ newNext then return ()
  else if newNext < log.startOffset then
    MethodM.onFs (FsM.fail (.offsetOutOfRange newNext))
  else
    match log.truncateTarget newNext with
    | none => throw .panic
    | some targetBase => cutToVia conv crc targetBase newNext

end Log

def LogOp.execVia : LogOp → LogM (Option ℕ)
  | append clock key value => do return some (← Log.appendVia conv crc clock key value).offset
  | appendReplicated clock record => do
    return some (← Log.appendReplicatedVia conv crc clock record).offset
  | flush clock => do
    let _ ← Log.flush clock
    return none
  | truncateSuffix newNext => do
    Log.truncateSuffixVia conv crc newNext
    return none
  | reopen clock => do
    let log ← MethodM.self
    let reopened ← MethodM.onFs (Log.openDirVia conv crc log.config clock)
    MethodM.modifySelf fun _ => reopened
    return none

end Via

/-! ## The cast of the code -/

section Cast

variable (crc : List UInt8 → UInt32) (config : LogConfig)

theorem castU32_exact : ConvExact castU32 := by
  intro n hn
  rw [castU32, u32_of_lt hn]

theorem onFs_pure {α β : Type} (b : β) :
    (MethodM.onFs (pure b) : MethodM α β) = pure b := rfl

private theorem scanVia_cast : Segment.scanVia castU32 crc config = Segment.scan crc config := by
  funext base truncate rebuild fuel
  induction fuel with
  | zero => rfl
  | succ fuel ih =>
    funext buf st
    rw [Segment.scan, ← ih]
    rfl

theorem recoverVia_cast : Segment.recoverVia castU32 crc config = Segment.recover crc config := by
  funext base truncate
  rw [Segment.recoverVia, Segment.recover, scanVia_cast]

private theorem segment_appendVia_cast :
    Segment.appendVia castU32 crc config = Segment.append crc config := by
  funext r
  simp only [Segment.appendVia, Segment.append, castU32, onFs_pure, pure_bind]

theorem startPosVia_cast (seg : Segment) (offset : ℕ) :
    seg.startPosVia castU32 offset = pure (seg.startPos offset) := by
  simp only [Segment.startPosVia, Segment.startPos, castU32, pure_bind]

private theorem readFromVia_cast : Segment.readFromVia castU32 crc = Segment.readFrom crc := by
  funext config seg offset maxBytes
  simp only [Segment.readFromVia, Segment.readFrom, startPosVia_cast, pure_bind]

private theorem positionOfVia_cast :
    Segment.positionOfVia castU32 crc config = Segment.positionOf crc config := by
  funext seg offset
  simp only [Segment.positionOfVia, Segment.positionOf, startPosVia_cast, pure_bind]

private theorem recoverAllVia_cast :
    Log.recoverAllVia castU32 crc config = Log.recoverAll crc config := by
  funext bases
  induction bases with
  | nil => rfl
  | cons base rest ih =>
    funext expected closed
    simp only [Log.recoverAllVia, Log.recoverAll, recoverVia_cast, ih]

private theorem openDirVia_cast : Log.openDirVia castU32 crc config = Log.openDir crc config := by
  funext clock
  rw [Log.openDir, ← recoverAllVia_cast]
  rfl

theorem appendRecordVia_cast : Log.appendRecordVia castU32 crc = Log.appendRecord crc := by
  have hwrite : Log.writeRecordVia castU32 crc = Log.writeRecord crc := by
    funext clock r
    simp only [Log.writeRecordVia, Log.writeRecord, segment_appendVia_cast]
  funext clock r
  rw [Log.appendRecordVia, Log.appendRecord, hwrite]

theorem readVia_cast : Log.readVia castU32 crc = Log.read crc := by
  funext offset maxBytes
  rw [Log.read, ← readFromVia_cast]
  rfl

private theorem truncateSuffixVia_cast :
    Log.truncateSuffixVia castU32 crc = Log.truncateSuffix crc := by
  have hrebuild : Log.rebuildAtVia castU32 crc = Log.rebuildAt crc := by
    funext target n
    simp only [Log.rebuildAtVia, Log.rebuildAt, positionOfVia_cast, recoverVia_cast]
  have hcut : Log.cutToVia castU32 crc = Log.cutTo crc := by
    funext target n
    rw [Log.cutTo, ← hrebuild]
    rfl
  funext n
  rw [Log.truncateSuffix, ← hcut]
  rfl

/-- With the cast of the code the operations are those of the code. -/
theorem execVia_cast (op : LogOp) : op.execVia castU32 crc = op.exec crc := by
  cases op with
  | append clock key value =>
    rw [LogOp.execVia, LogOp.exec, Log.appendVia, Log.append, appendRecordVia_cast]
  | appendReplicated clock r =>
    rw [LogOp.execVia, LogOp.exec, Log.appendReplicatedVia, Log.appendReplicated,
      appendRecordVia_cast]
  | flush clock => rfl
  | truncateSuffix n => rw [LogOp.execVia, LogOp.exec, truncateSuffixVia_cast]
  | reopen clock =>
    simp only [LogOp.execVia, LogOp.exec, openDirVia_cast]

end Cast

/-! ## Small segments -/

section Exact

variable {conv : ℕ → FsM ℕ} (crc : List UInt8 → UInt32) (config : LogConfig)

theorem ConvExact.eq_cast (h : ConvExact conv) {n : ℕ} (hn : n < 2 ^ 32) :
    conv n = pure (u32 n) := by
  rw [h n hn, u32_of_lt hn]

/-- Offsets and positions in the segment fit. -/
structure Segment.Small (seg : Segment) : Prop where
  next_le : seg.nextOffset ≤ seg.baseOffset + 2 ^ 32
  size_lt : seg.size < 2 ^ 32

private theorem scanVia_keep (base : ℕ) (truncate : Bool) (fuel : ℕ) (buf : List UInt8)
    (st : Segment.Scan) : Segment.scanVia conv crc config base truncate false fuel buf st =
      Segment.scan crc config base truncate false fuel buf st := by
  induction fuel generalizing buf st with
  | zero => rfl
  | succ fuel ih =>
    cases hdecode : Record.decode crc buf config.maxRecordBytes <;>
      simp only [Segment.scanVia, Segment.scan, hdecode, Bool.false_eq_true, false_and, if_false,
        pure_bind, ih]

private theorem scanVia_eq (h : ConvExact conv) {base : ℕ} (truncate rebuild : Bool) (fuel : ℕ)
    {buf : List UInt8} {st : Segment.Scan} (hend : st.validEnd + buf.length < 2 ^ 32)
    (hcount : st.nextOffset ≤ base + st.validEnd) :
    Segment.scanVia conv crc config base truncate rebuild fuel buf st =
      Segment.scan crc config base truncate rebuild fuel buf st := by
  induction fuel generalizing buf st with
  | zero => rfl
  | succ fuel ih =>
    cases hdecode : Record.decode crc buf config.maxRecordBytes with
    | incomplete => simp only [Segment.scanVia, Segment.scan, hdecode]
    | corrupt reason => simp only [Segment.scanVia, Segment.scan, hdecode]
    | record r c =>
      obtain ⟨hc, -, -, hle, -⟩ := Record.decode_eq_record_iff.mp hdecode
      have hpos : 0 < c := by
        rw [hc, LEN_FIELD_BYTES]
        omega
      have hrest : ∀ index bytes, Segment.scanVia conv crc config base truncate rebuild fuel
          (buf.drop c) ⟨index, st.nextOffset + 1, bytes, st.validEnd + c⟩ =
            Segment.scan crc config base truncate rebuild fuel (buf.drop c)
              ⟨index, st.nextOffset + 1, bytes, st.validEnd + c⟩ := by
        intro index bytes
        apply ih
        · rw [List.length_drop]
          dsimp only
          omega
        · dsimp only
          omega
      simp only [Segment.scanVia, Segment.scan, hdecode]
      split_ifs with hoffset hdue
      · rfl
      · have hrel : conv (r.offset - base) = pure (u32 (r.offset - base)) := by
          apply h.eq_cast
          rw [not_ne_iff.mp hoffset]
          omega
        have hposition : conv st.validEnd = pure (u32 st.validEnd) := h.eq_cast (by omega)
        simp only [hrel, hposition, pure_bind, hrest]
      · simp only [pure_bind, hrest]

private theorem recoverStart_start (base : ℕ) (truncate : Bool) (fs : Fs) :
    Ends (fun start _ => start.2.2.2 = true → start.2.1 = 0 ∧ start.2.2.1 = base) (fun _ _ => True)
      ((Segment.recoverStart base truncate).run fs) := by
  have hcreate : ∀ fs : Fs, Ends (fun _ _ => True) (fun _ _ => True)
      ((SparseIndex.create base).run fs) := fun fs => Keeps.trivial _ fs True.intro
  rw [Segment.recoverStart]
  split_ifs
  · exact Ends.bind _ (hcreate fs) fun _ _ _ _ => ⟨rfl, rfl⟩
  · refine Ends.bind (fun _ _ => True) (Keeps.trivial _ fs True.intro) fun idx fs' _ => ?_
    cases idx with
    | none => exact Ends.bind _ (hcreate fs') fun _ _ _ _ => ⟨rfl, rfl⟩
    | some idx =>
      dsimp only
      cases idx.last with
      | none =>
        intro h
        cases h
      | some e =>
        intro h
        cases h

theorem readLog_ends (base : ℕ) (fs : Fs) :
    Ends (fun file fs' => fs' = fs ∧ fs.dir.log base = some file) (fun _ fs' => fs' = fs)
      ((FsM.readLog base).run fs) := by
  simp only [FsM.readLog, EStateM.run]
  cases hfile : fs.dir.log base with
  | none => exact rfl
  | some file => exact ⟨rfl, rfl⟩

theorem recoverVia_run (h : ConvExact conv) (base : ℕ) (truncate : Bool) {fs : Fs}
    (hsize : ∀ f, fs.dir.log base = some f → f.bytes.length < 2 ^ 32) :
    (Segment.recoverVia conv crc config base truncate).run fs =
      (Segment.recover crc config base truncate).run fs := by
  have hlog : Keeps (fun fs' : Fs => fs'.dir.log base = fs.dir.log base)
      (Segment.recoverStart base truncate) :=
    recoverStart_keeps (perform_keeps (P := fun d => d.log base = fs.dir.log base)
      (.of_apply (fun _ hd => hd) fun _ _ => rfl)) truncate
  suffices hagree : Agree (fun _ _ => True) (fun _ _ => True)
      ((Segment.recoverVia conv crc config base truncate).run fs)
      ((Segment.recover crc config base truncate).run fs) from hagree.1
  refine Agree.bind_left
    (fun start fs' => (start.2.2.2 = true → start.2.1 = 0 ∧ start.2.2.1 = base) ∧
      fs'.dir.log base = fs.dir.log base)
    ((recoverStart_start base truncate fs).and_good fun start fs' hrun => hlog.of_ok rfl hrun) ?_
  rintro ⟨index, scanPos, scanOffset, rebuild⟩ fs₁ ⟨hstart, hsame⟩
  refine Agree.bind_left _ ((readLog_ends base fs₁).imp_bad fun _ _ _ => True.intro) ?_
  rintro file fs₂ ⟨rfl, hfile⟩
  refine Agree.bind_left (fun _ _ => True) (Keeps.trivial _ fs₂ True.intro) fun capacity fs₃ _ => ?_
  have hscan : ∀ fuel st, st.validEnd = scanPos → st.nextOffset = scanOffset →
      Segment.scanVia conv crc config base truncate rebuild fuel (file.bytes.drop scanPos) st =
        Segment.scan crc config base truncate rebuild fuel (file.bytes.drop scanPos) st := by
    intro fuel st hpos hoffset
    cases rebuild with
    | false => exact scanVia_keep crc config base truncate fuel _ st
    | true =>
      obtain ⟨rfl, rfl⟩ : scanPos = 0 ∧ scanOffset = base := hstart rfl
      have hlen := hsize file (hsame.symm.trans hfile)
      refine scanVia_eq crc config h truncate true fuel ?_ ?_
      · rw [hpos, List.drop_zero, Nat.zero_add]
        exact hlen
      · rw [hpos, hoffset]
        exact Nat.le_add_right _ _
  rw [hscan _ _ rfl rfl]
  exact .refl (Keeps.trivial _ fs₃ True.intro)

theorem segment_appendVia_run (h : ConvExact conv) {seg : Segment} (hsmall : seg.Small)
    {r : Record} (hoffset : r.offset < seg.baseOffset + 2 ^ 32) (fs : Fs) :
    (Segment.appendVia conv crc config r).run (seg, fs) =
      (Segment.append crc config r).run (seg, fs) := by
  have hrel : conv (r.offset - seg.baseOffset) = pure (u32 (r.offset - seg.baseOffset)) :=
    h.eq_cast (by omega)
  have hposition : conv seg.size = pure (u32 seg.size) := h.eq_cast hsmall.size_lt
  rw [Segment.appendVia, Segment.append, EStateM.run_bind, EStateM.run_bind, MethodM.run_self]
  simp only [hrel, hposition, onFs_pure, pure_bind]

theorem startPosVia_eq (h : ConvExact conv) {seg : Segment} {offset : ℕ}
    (hoffset : offset < seg.baseOffset + 2 ^ 32) :
    seg.startPosVia conv offset = pure (seg.startPos offset) := by
  have hrel : conv (offset - seg.baseOffset) = pure (u32 (offset - seg.baseOffset)) :=
    h.eq_cast (by omega)
  rw [Segment.startPosVia, hrel, pure_bind, Segment.startPos]

theorem readFromVia_eq (h : ConvExact conv) {seg : Segment} (hsmall : seg.Small)
    (offset maxBytes : ℕ) :
    seg.readFromVia conv crc config offset maxBytes = seg.readFrom crc config offset maxBytes := by
  have hnext := hsmall.next_le
  rw [Segment.readFromVia, Segment.readFrom]
  split_ifs with hout
  · rfl
  · rw [startPosVia_eq h (by omega), pure_bind]

theorem positionOfVia_eq (h : ConvExact conv) {seg : Segment} (hsmall : seg.Small) (offset : ℕ) :
    seg.positionOfVia conv crc config offset = seg.positionOf crc config offset := by
  have hnext := hsmall.next_le
  rw [Segment.positionOfVia, Segment.positionOf]
  split_ifs with hout hend
  · rfl
  · rfl
  · rw [startPosVia_eq h (by omega), pure_bind]

end Exact
end Replog.Storage
