import Replog.Storage.LogRefinement
import Replog.Storage.Recovering

/-!
# The counters of a log

Whether an append rolls the segment, and whether it flushes, depends on a few numbers that the log
keeps: its end, the size of the active segment, the bytes since the last flush and its time. What an
append does to them is known beforehand from the length of the record.
-/

namespace Replog.Storage
open Replog.Library

namespace Log

def flushed (clock : Clock) (log : Log) : Log :=
  { log with
    durableOffset := checkedPred log.active.nextOffset
    dirtyBytes := 0
    lastFlush := clock.instantMs }

def rolled (clock : Clock) (log : Log) : Log :=
  { log.flushed clock with
    closed := insertClosed log.active log.closed
    active := ⟨log.active.nextOffset, ⟨[]⟩, log.active.nextOffset, 0, 0⟩ }

/-- One record of `encodedLen` bytes more in the active segment. -/
def counted (encodedLen : ℕ) (log : Log) : Log :=
  { log with
    active := { log.active with
      size := log.active.size + encodedLen
      nextOffset := log.active.nextOffset + 1 }
    dirtyBytes := log.dirtyBytes + encodedLen }

/-- The flush after a record, where the policy asks for one. -/
def flushedIfDue (clock : Clock) (log : Log) : Log :=
  if log.flushDue clock then log.flushed clock else log

/-- What the append of a record of `encodedLen` bytes makes of the counters. -/
def afterAppend (clock : Clock) (encodedLen : ℕ) (log : Log) : Log :=
  ((if log.rollDue encodedLen then log.rolled clock else log).counted encodedLen).flushedIfDue clock

/-- What the records make of the counters, up to the first that the log does not take. -/
def afterAll (takes : Log → Record → Bool) : List Record → (ℕ → Clock) → Log → Log
  | [], _, log => log
  | r :: rest, clock, log =>
    if takes log r then
      afterAll takes rest (fun i => clock (i + 1)) (log.afterAppend (clock 0) r.encodedLen)
    else log

/-- The log takes the record as it is. -/
def takesNext (log : Log) (r : Record) : Bool :=
  r.offset = log.nextOffset && r.encodedLen ≤ log.config.maxRecordBytes

/-- The log takes the record once it has given it an offset. -/
def takesAny (log : Log) (r : Record) : Bool := r.encodedLen ≤ log.config.maxRecordBytes

/-- The counters of both logs are the same. -/
structure SameCounters (log log' : Log) : Prop where
  config_eq : log'.config = log.config
  next_eq : log'.active.nextOffset = log.active.nextOffset
  size_eq : log'.active.size = log.active.size
  dirty_eq : log'.dirtyBytes = log.dirtyBytes
  flush_eq : log'.lastFlush = log.lastFlush
  durable_eq : log'.durableOffset = log.durableOffset

namespace SameCounters

variable {log log' log'' : Log}

theorem refl (log : Log) : SameCounters log log := ⟨rfl, rfl, rfl, rfl, rfl, rfl⟩

theorem trans (h : SameCounters log log') (h' : SameCounters log' log'') :
    SameCounters log log'' :=
  ⟨h'.config_eq.trans h.config_eq, h'.next_eq.trans h.next_eq, h'.size_eq.trans h.size_eq,
    h'.dirty_eq.trans h.dirty_eq, h'.flush_eq.trans h.flush_eq, h'.durable_eq.trans h.durable_eq⟩

theorem rollDue_eq (h : SameCounters log log') (encodedLen : ℕ) :
    log'.rollDue encodedLen = log.rollDue encodedLen := by
  rw [rollDue, rollDue, h.size_eq, h.config_eq]

theorem flushDue_eq (h : SameCounters log log') (clock : Clock) :
    log'.flushDue clock = log.flushDue clock := by
  rw [flushDue, flushDue, h.config_eq, h.dirty_eq, h.flush_eq]

theorem flushed (h : SameCounters log log') (clock : Clock) :
    SameCounters (log.flushed clock) (log'.flushed clock) :=
  ⟨h.config_eq, h.next_eq, h.size_eq, rfl, rfl, congrArg checkedPred h.next_eq⟩

theorem rolled (h : SameCounters log log') (clock : Clock) :
    SameCounters (log.rolled clock) (log'.rolled clock) :=
  ⟨h.config_eq, h.next_eq, rfl, rfl, rfl, congrArg checkedPred h.next_eq⟩

theorem counted (h : SameCounters log log') (encodedLen : ℕ) :
    SameCounters (log.counted encodedLen) (log'.counted encodedLen) :=
  ⟨h.config_eq, congrArg (· + 1) h.next_eq, congrArg (· + encodedLen) h.size_eq,
    congrArg (· + encodedLen) h.dirty_eq, h.flush_eq, h.durable_eq⟩

theorem flushedIfDue (h : SameCounters log log') (clock : Clock) :
    SameCounters (log.flushedIfDue clock) (log'.flushedIfDue clock) := by
  rw [Log.flushedIfDue, Log.flushedIfDue, h.flushDue_eq]
  split_ifs
  · exact h.flushed clock
  · exact h

theorem afterAppend (h : SameCounters log log') (clock : Clock) (encodedLen : ℕ) :
    SameCounters (log.afterAppend clock encodedLen) (log'.afterAppend clock encodedLen) := by
  rw [Log.afterAppend, Log.afterAppend, h.rollDue_eq]
  refine (SameCounters.counted ?_ encodedLen).flushedIfDue clock
  split_ifs
  · exact h.rolled clock
  · exact h

theorem afterAll {takes : Log → Record → Bool}
    (htakes : ∀ {log log' : Log}, SameCounters log log' → ∀ r, takes log' r = takes log r)
    (h : SameCounters log log') (records : List Record) (clock : ℕ → Clock) :
    SameCounters (log.afterAll takes records clock) (log'.afterAll takes records clock) := by
  induction records generalizing clock log log' with
  | nil => exact h
  | cons r rest ih =>
    rw [Log.afterAll, Log.afterAll, htakes h]
    split_ifs
    · exact ih (h.afterAppend (clock 0) r.encodedLen) _
    · exact h

theorem takesNext_eq (h : SameCounters log log') (r : Record) :
    log'.takesNext r = log.takesNext r := by
  rw [takesNext, takesNext, show log'.nextOffset = log.nextOffset from h.next_eq, h.config_eq]

theorem takesAny_eq (h : SameCounters log log') (r : Record) :
    log'.takesAny r = log.takesAny r := by
  rw [takesAny, takesAny, h.config_eq]

end SameCounters

end Log

/-! ## What the operations do -/

section Operations

variable (crc : List UInt8 → UInt32)

private theorem segment_append_counts (config : LogConfig) (r : Record) (s : Segment × Fs) :
    Ends (fun written s' => written = r.encodedLen ∧ s'.1.size = s.1.size + r.encodedLen ∧
        s'.1.nextOffset = s.1.nextOffset + 1)
      (fun _ s' => s'.1.size = s.1.size ∧ s'.1.nextOffset = s.1.nextOffset)
      ((Segment.append crc config r).run s) := by
  obtain ⟨seg, fs⟩ := s
  have hfs : ∀ {α : Type} (x : FsM α) (seg : Segment) (fs : Fs),
      Ends (fun _ s' => seg = s'.1) (fun _ s' => seg = s'.1)
        ((MethodM.onFs x : MethodM Segment α).run (seg, fs)) := fun x seg fs =>
    (onFs_ends (Keeps.trivial x fs True.intro)).imp (fun _ _ h => h.1.symm) fun _ _ h => h.1.symm
  have hwrite : ∀ seg' : Segment, seg'.size = seg.size → seg'.nextOffset = seg.nextOffset →
      ∀ fs, Ends (fun written s' => written = r.encodedLen ∧
          s'.1.size = seg.size + r.encodedLen ∧ s'.1.nextOffset = seg.nextOffset + 1)
        (fun _ s' => s'.1.size = seg.size ∧ s'.1.nextOffset = seg.nextOffset)
        ((do
          MethodM.onFs (FsM.perform (.writeLog seg.baseOffset (r.encode crc)))
          MethodM.modifySelf fun s : Segment => { s with
            size := s.size + (r.encode crc).length
            bytesSinceIndex := s.bytesSinceIndex + (r.encode crc).length
            nextOffset := s.nextOffset + 1 }
          return (r.encode crc).length : MethodM Segment ℕ).run (seg', fs)) := by
    intro seg' hsize hnext fs
    refine Ends.bind _ ((hfs _ seg' fs).imp_bad ?_) ?_
    · rintro e s rfl
      exact ⟨hsize, hnext⟩
    · rintro _ ⟨_, fs'⟩ rfl
      have hlen := Record.length_encode crc r
      refine ⟨hlen, ?_, congrArg (· + 1) hnext⟩
      rw [← hsize, ← hlen]
  rw [Segment.append, EStateM.run_bind, MethodM.run_self]
  dsimp only
  split_ifs
  · refine Ends.bind _ ((hfs _ seg fs).imp_bad ?_) ?_
    · rintro e s rfl
      exact ⟨rfl, rfl⟩
    · rintro index ⟨_, fs'⟩ rfl
      rw [EStateM.run_bind, MethodM.run_modifySelf]
      exact hwrite { seg with index, bytesSinceIndex := 0 } rfl rfl fs'
  · exact hwrite seg rfl rfl fs

theorem flush_counts (clock : Clock) (s : Log × Fs) :
    Ends (fun _ s' => s'.1 = s.1.flushed clock) (fun _ s' => s'.1 = s.1)
      ((Log.flush clock).run s) := by
  obtain ⟨log, fs⟩ := s
  rw [Log.flush, EStateM.run_bind, MethodM.run_self]
  dsimp only
  refine Ends.bind _ ((onFs_ends (Keeps.trivial log.active.flush fs True.intro)).imp
    (fun _ _ h => h.1) fun _ _ h => h.1) ?_
  rintro _ ⟨_, fs'⟩ rfl
  exact rfl

theorem roll_counts (clock : Clock) (s : Log × Fs) :
    Ends (fun _ s' => s'.1 = s.1.rolled clock) (fun _ _ => True) ((Log.roll clock).run s) := by
  rw [Log.roll]
  refine Ends.bind _ ((flush_counts clock s).imp_bad fun _ _ _ => True.intro) ?_
  rintro _ ⟨log', fs'⟩ hflushed
  dsimp only at hflushed
  subst hflushed
  rw [EStateM.run_bind, MethodM.run_self]
  dsimp only
  have hcreate : Ends (fun seg _ => seg = (s.1.rolled clock).active) (fun _ _ => True)
      ((Segment.create (s.1.flushed clock).active.nextOffset).run fs') := by
    rw [Segment.create]
    refine Ends.bind (fun _ _ => True) (Keeps.trivial _ fs' True.intro) fun _ fs'' _ => ?_
    rw [SparseIndex.create]
    refine Ends.bind (fun index _ => index = ⟨[]⟩) ?_ ?_
    · exact Ends.bind (fun _ _ => True) (Keeps.trivial _ fs'' True.intro) fun _ _ _ => rfl
    · rintro _ _ rfl
      exact rfl
  refine Ends.bind _ ((onFs_ends hcreate).imp_bad fun _ _ _ => True.intro) ?_
  rintro _ ⟨_, fs''⟩ ⟨rfl, rfl⟩
  exact rfl

theorem writeRecord_counts (clock : Clock) (r : Record) (s : Log × Fs) :
    Ends (fun _ s' => ((s.1.counted r.encodedLen).flushedIfDue clock).SameCounters s'.1)
      (fun _ _ => True) ((Log.writeRecord crc clock r).run s) := by
  obtain ⟨log, fs⟩ := s
  rw [Log.writeRecord, EStateM.run_bind, MethodM.run_self]
  dsimp only
  refine Ends.bind _ ((onField_ends (segment_append_counts crc log.config r
    (log.active, fs))).imp_bad fun _ _ _ => True.intro) ?_
  rintro written ⟨log', fs'⟩ ⟨seg, hself, rfl, hsize, hnext⟩
  dsimp only at hself
  subst hself
  have hcounted : (log.counted r.encodedLen).SameCounters
      { log with active := seg, dirtyBytes := log.dirtyBytes + r.encodedLen } :=
    ⟨rfl, hnext, hsize, rfl, rfl, rfl⟩
  rw [EStateM.run_bind, MethodM.run_modifySelf]
  dsimp only
  rw [EStateM.run_bind, MethodM.run_self]
  dsimp only
  have hafter := hcounted.flushedIfDue clock
  generalize ({ log with active := seg, dirtyBytes := log.dirtyBytes + r.encodedLen } : Log) = log'
    at hafter
  rw [show log'.flushedIfDue clock = if log'.flushDue clock then log'.flushed clock else log'
    from rfl] at hafter
  split_ifs with hdue
  · rw [if_pos hdue] at hafter
    refine Ends.bind _ ((flush_counts clock (log', fs')).imp_bad
      fun _ _ _ => True.intro) ?_
    rintro _ ⟨_, fs''⟩ rfl
    exact hafter
  · rw [if_neg hdue] at hafter
    exact hafter

/-- Where the counters say so the record goes into a new segment, and is flushed. -/
theorem appendRecord_counts (clock : Clock) (r : Record) (s : Log × Fs) :
    Ends (fun _ s' => (s.1.afterAppend clock r.encodedLen).SameCounters s'.1)
      (fun _ _ => True) ((Log.appendRecord crc clock r).run s) := by
  rw [Log.appendRecord, EStateM.run_bind, MethodM.run_self]
  dsimp only
  rw [Log.afterAppend]
  split_ifs
  · exact True.intro
  · refine Ends.bind _ ((roll_counts clock s).imp_bad fun _ _ _ => True.intro) ?_
    rintro _ ⟨_, fs'⟩ rfl
    exact writeRecord_counts crc clock r _
  · exact True.intro
  · exact writeRecord_counts crc clock r s

end Operations

end Replog.Storage
