import Replog.Library.Machine
import Replog.Storage.LogCuts

/-!
# The log refines a list of records

`LogOp.exec` runs an operation on an open log, `LogOp.spec` says what it means for a plain
list of records. Along any run the replies agree, and whatever the segments, indexes and file
contents are, the log stands for exactly the list.
-/

namespace Replog.Storage
open Replog.Library

/-- The operations of an open log; `reopen` closes it and opens its directory again. -/
inductive LogOp where
  | append (clock : Clock) (key : Option (List UInt8)) (value : List UInt8)
  | appendReplicated (clock : Clock) (record : Record)
  | flush (clock : Clock)
  | truncateSuffix (newNext : ℕ)
  | reopen (clock : Clock)
  deriving DecidableEq

/-- What a caller gets back: the offset of an append, or how the call failed. -/
abbrev Reply := Except Failure (Option ℕ)

namespace LogOp

variable (crc : List UInt8 → UInt32) (config : LogConfig)

def exec : LogOp → LogM (Option ℕ)
  | append clock key value => do return some (← Log.append crc clock key value).offset
  | appendReplicated clock record => do
    return some (← Log.appendReplicated crc clock record).offset
  | flush clock => do
    let _ ← Log.flush clock
    return none
  | truncateSuffix newNext => do
    Log.truncateSuffix crc newNext
    return none
  | reopen clock => do
    let log ← MethodM.self
    let reopened ← MethodM.onFs (Log.openDir crc log.config clock)
    MethodM.modifySelf fun _ => reopened
    return none

/-- One operation with its reply; a failed call leaves the state it got to. -/
def step (op : LogOp) (s : Log × Fs) : Reply × (Log × Fs) :=
  match (op.exec crc).run s with
  | .ok v s' => (.ok v, s')
  | .error e s' => (.error e, s')

/-- An append of a record to the list: it has to fit. -/
def specAppend (record : Record) (rs : List Record) : Reply × List Record :=
  if config.maxRecordBytes < record.encodedLen then
    (.error (.err (.recordTooLarge record.encodedLen)), rs)
  else (.ok (some record.offset), rs ++ [record])

/-- The meaning of an operation on the list of records. -/
def spec : LogOp → List Record → Reply × List Record
  | append clock key value, rs =>
    specAppend config { offset := rs.length, timestampMs := clock.wallMs, key, value } rs
  | appendReplicated _ record, rs =>
    if record.offset ≠ rs.length then
      (.error (.err (.replicatedGap record.offset rs.length)), rs)
    else specAppend config record rs
  | flush _, rs => (.ok none, rs)
  | truncateSuffix newNext, rs => (.ok none, rs.take newNext)
  | reopen _, rs => (.ok none, rs)

end LogOp

/-- The log stands for the records `rs`. -/
def Represents (crc : List UInt8 → UInt32) (config : LogConfig) (s : Log × Fs)
    (rs : List Record) : Prop :=
  ∃ cs act, LogOk crc config s cs act ∧ cs.flatten ++ act = rs

/-- Reads of a log that holds `rs`: at an offset in range the longest run of its segment that
fits, or the first record alone; at the end nothing; past it an error. -/
structure ReadsOf (crc : List UInt8 → UInt32) (s : Log × Fs) (rs : List Record) : Prop where
  inside : ∀ o < rs.length, ∀ maxBytes, ∃ run, (Log.read crc o maxBytes).run s = .ok run s ∧
    ReadRun maxBytes (s.1.segmentTail rs o) run
  atEnd : ∀ maxBytes, (Log.read crc rs.length maxBytes).run s = .ok [] s
  past : ∀ o, rs.length < o → ∀ maxBytes,
    (Log.read crc o maxBytes).run s = .error (.err (.offsetOutOfRange o)) s

variable {crc : List UInt8 → UInt32} {config : LogConfig}

theorem Represents.reads (hc : config.Valid) {s : Log × Fs} {rs : List Record}
    (h : Represents crc config s rs) : ReadsOf crc s rs := by
  obtain ⟨cs, act, hok, rfl⟩ := h
  exact ⟨fun o ho maxBytes => read_spec hc hok ho maxBytes, read_end hok,
    fun o ho maxBytes => read_past hok ho maxBytes⟩

theorem Represents.nextOffset_eq {s : Log × Fs} {rs : List Record}
    (h : Represents crc config s rs) : s.1.nextOffset = rs.length := by
  obtain ⟨cs, act, hok, rfl⟩ := h
  exact hok.nextOffset_eq

theorem Represents.startOffset_eq {s : Log × Fs} {rs : List Record}
    (h : Represents crc config s rs) : s.1.startOffset = 0 := by
  obtain ⟨cs, act, hok, -⟩ := h
  exact hok.startOffset_eq

theorem Represents.config_eq {s : Log × Fs} {rs : List Record} (h : Represents crc config s rs) :
    s.1.config = config := by
  obtain ⟨cs, act, hok, -⟩ := h
  exact hok.config_eq

theorem Represents.healthy {s : Log × Fs} {rs : List Record} (h : Represents crc config s rs) :
    s.2.Healthy := by
  obtain ⟨cs, act, hok, -⟩ := h
  exact hok.healthy

theorem Represents.numbered {s : Log × Fs} {rs : List Record} (h : Represents crc config s rs) :
    Numbered config 0 rs := by
  obtain ⟨cs, act, hok, rfl⟩ := h
  have hactive := hok.active.numbered
  refine numbered_append.mpr ⟨hok.closed.tiled.numbered fun _ _ h => h.numbered, ?_⟩
  rwa [Nat.zero_add]

theorem Represents.length_le {s : Log × Fs} {rs : List Record} (h : Represents crc config s rs) :
    rs.length ≤ 2 ^ 64 := by
  have hnum := h.numbered
  rcases rs.eq_nil_or_concat with rfl | ⟨init, r, rfl⟩
  · exact Nat.zero_le _
  · rw [List.concat_eq_append] at hnum ⊢
    have hlt := (numbered_append.mp hnum).2.2.1
    rw [List.length_append, List.length_singleton]
    omega

/-- An append with its offset in place does what the list does. -/
theorem appendRecord_refines (hc : config.Valid) {s : Log × Fs} {cs : List (List Record)}
    {act : List Record} (h : LogOk crc config s cs act) {r : Record}
    (hoffset : r.offset = (cs.flatten ++ act).length)
    (hroom : (cs.flatten ++ act).length < 2 ^ 64) (clock : Clock) :
    (config.maxRecordBytes < r.encodedLen ∧ (Log.appendRecord crc clock r).run s =
        .error (.err (.recordTooLarge r.encodedLen)) s) ∨
      (r.encodedLen ≤ config.maxRecordBytes ∧ Appends crc config s (cs.flatten ++ act) r
        ((Log.appendRecord crc clock r).run s)) := by
  by_cases hfits : r.encodedLen ≤ config.maxRecordBytes
  · right
    refine ⟨hfits, appendRecord_spec hc h ⟨?_, ?_, hfits, trivial⟩ clock⟩
    · rw [hoffset, List.length_append]
      rfl
    · exact lt_of_eq_of_lt List.length_append.symm hroom
  · left
    refine ⟨by omega, ?_⟩
    simp only [Log.appendRecord, EStateM.run_bind, MethodM.run_self, h.config_eq]
    rw [if_pos (by omega)]
    rfl

/-- The relation of a log to its list, with room for `n` more records. -/
def RepresentsRoom (crc : List UInt8 → UInt32) (config : LogConfig) (n : ℕ) (s : Log × Fs)
    (rs : List Record) : Prop :=
  Represents crc config s rs ∧ rs.length + n ≤ 2 ^ 64

def LogOp.execRecord (crc : List UInt8 → UInt32) (clock : Clock) (r : Record) :
    LogM (Option ℕ) := do
  return some (← Log.appendRecord crc clock r).offset

theorem LogOp.exec_append {s : Log × Fs} {rs : List Record} (h : s.1.nextOffset = rs.length)
    (clock : Clock) (key : Option (List UInt8)) (value : List UInt8) :
    ((LogOp.append clock key value).exec crc).run s = (LogOp.execRecord crc clock
      { offset := rs.length, timestampMs := clock.wallMs, key, value }).run s := by
  have hoffset : s.1.active.nextOffset = rs.length := h
  simp only [LogOp.exec, LogOp.execRecord, Log.append, EStateM.run_bind, MethodM.run_self, hoffset]

theorem LogOp.exec_appendReplicated {s : Log × Fs} {rs : List Record}
    (h : s.1.nextOffset = rs.length) (clock : Clock) {r : Record} (hr : r.offset = rs.length) :
    ((LogOp.appendReplicated clock r).exec crc).run s =
      (LogOp.execRecord crc clock r).run s := by
  simp only [LogOp.exec, LogOp.execRecord, Log.appendReplicated, EStateM.run_bind, MethodM.run_self]
  rw [if_neg (by rw [h]; exact not_not.mpr hr)]

theorem LogOp.exec_appendReplicated_gap (crc : List UInt8 → UInt32) {s : Log × Fs}
    {rs : List Record} (h : s.1.nextOffset = rs.length) (clock : Clock) {r : Record}
    (hr : r.offset ≠ rs.length) :
    ((LogOp.appendReplicated clock r).exec crc).run s =
      .error (.err (.replicatedGap r.offset rs.length)) s := by
  simp only [LogOp.exec, Log.appendReplicated, EStateM.run_bind, MethodM.run_self]
  rw [if_pos (by rw [h]; exact hr), h]
  rfl

/-- An append that fits into the active segment goes there. -/
theorem LogOk.append_within (hc : config.Valid) {s : Log × Fs} {cs : List (List Record)}
    {act : List Record} (h : LogOk crc config s cs act) (clock : Clock)
    (key : Option (List UInt8)) (value : List UInt8) {r : Record}
    (hr : r = { offset := (cs.flatten ++ act).length, timestampMs := clock.wallMs, key, value })
    (hfits : r.encodedLen ≤ config.maxRecordBytes)
    (hroom : (cs.flatten ++ act).length < 2 ^ 64)
    (hsegment : totalLen act + r.encodedLen ≤ config.maxSegmentBytes) :
    LogOk crc config ((LogOp.append clock key value).step crc s).2 cs (act ++ [r]) := by
  have hlen : (cs.flatten ++ act).length = nextBase cs + act.length := List.length_append
  have hoffset : r.offset = nextBase cs + act.length := by rw [hr, hlen]
  have hnum : Numbered config (nextBase cs + act.length) [r] :=
    ⟨hoffset, by omega, hfits, trivial⟩
  have hvalid := hc.segment_le
  have hsize : totalLen (act ++ [r]) ≤ 2 ^ 30 := by
    rw [totalLen_append, totalLen_cons, totalLen_nil]
    omega
  obtain ⟨info, log, ops, hrun, -, -, hok⟩ := writeRecord_within h hnum hsize clock
  have hroll : s.1.rollDue r.encodedLen = false := by
    rw [Log.rollDue, h.active.size_eq, h.config_eq]
    simp only [Bool.and_eq_false_iff, decide_eq_false_iff_not]
    omega
  have happend : (Log.appendRecord crc clock r).run s = .ok info (log, s.2.advance ops) := by
    rw [← hrun]
    simp only [Log.appendRecord, EStateM.run_bind, MethodM.run_self, h.config_eq, hroll]
    rw [if_neg (by omega)]
    rfl
  rw [LogOp.step, LogOp.exec_append h.nextOffset_eq, ← hr, LogOp.execRecord]
  simp only [EStateM.run_bind, happend, EStateM.run_pure]
  exact hok

private theorem step_append_refines {op : LogOp} {s : Log × Fs} {cs : List (List Record)}
    {act : List Record} (h : LogOk crc config s cs act) {r : Record} {clock : Clock}
    (hexec : (op.exec crc).run s = (LogOp.execRecord crc clock r).run s)
    (hspec : op.spec config (cs.flatten ++ act) = LogOp.specAppend config r (cs.flatten ++ act))
    (hresult : (config.maxRecordBytes < r.encodedLen ∧ (Log.appendRecord crc clock r).run s =
        .error (.err (.recordTooLarge r.encodedLen)) s) ∨
      (r.encodedLen ≤ config.maxRecordBytes ∧ Appends crc config s (cs.flatten ++ act) r
        ((Log.appendRecord crc clock r).run s))) :
    (op.step crc s).1 = (op.spec config (cs.flatten ++ act)).1 ∧
      Represents crc config (op.step crc s).2 (op.spec config (cs.flatten ++ act)).2 := by
  rw [hspec, LogOp.step, hexec, LogOp.specAppend, LogOp.execRecord]
  rcases hresult with ⟨hlarge, hrun⟩ | ⟨hfits, info, log, ops, hrun, hinfo, -, cs', act', hcs, hok⟩
  · simp only [EStateM.run_bind, hrun, hlarge, if_true]
    exact ⟨trivial, cs, act, h, rfl⟩
  · rw [if_neg (by omega)]
    simp only [EStateM.run_bind, hrun, EStateM.run_pure, hinfo]
    exact ⟨trivial, cs', act', hok, hcs⟩

/-- Every operation replies as the list does and leaves a log that stands for the new list. -/
theorem step_refines (hc : config.Valid) :
    StepRefines (RepresentsRoom crc config) (LogOp.step crc) (LogOp.spec config) := by
  rintro n op s rs ⟨⟨cs, act, h, rfl⟩, hroom⟩
  have hlt : (cs.flatten ++ act).length < 2 ^ 64 := by omega
  suffices hstep : (op.step crc s).1 = (op.spec config (cs.flatten ++ act)).1 ∧
      Represents crc config (op.step crc s).2 (op.spec config (cs.flatten ++ act)).2 ∧
      (op.spec config (cs.flatten ++ act)).2.length ≤ (cs.flatten ++ act).length + 1 by
    exact ⟨hstep.1, hstep.2.1, by omega⟩
  have hnext := h.nextOffset_eq
  have hspecLen : ∀ r, (LogOp.specAppend config r (cs.flatten ++ act)).2.length ≤
      (cs.flatten ++ act).length + 1 := by
    intro r
    rw [LogOp.specAppend]
    split_ifs
    · exact Nat.le_succ _
    · exact List.length_append.le
  cases op with
  | append clock key value =>
    rw [← and_assoc]
    exact ⟨step_append_refines h (LogOp.exec_append hnext clock key value) rfl
      (appendRecord_refines hc h rfl hlt clock), hspecLen _⟩
  | appendReplicated clock record =>
    by_cases hoffset : record.offset = (cs.flatten ++ act).length
    · rw [← and_assoc]
      have hspec : (LogOp.appendReplicated clock record).spec config (cs.flatten ++ act) =
          LogOp.specAppend config record (cs.flatten ++ act) := by
        rw [LogOp.spec, if_neg (not_not.mpr hoffset)]
      refine ⟨step_append_refines h (LogOp.exec_appendReplicated hnext clock hoffset) hspec
        (appendRecord_refines hc h hoffset hlt clock), ?_⟩
      rw [hspec]
      exact hspecLen record
    · have hrun := LogOp.exec_appendReplicated_gap crc hnext clock hoffset
      simp only [LogOp.step, hrun, LogOp.spec, ne_eq, hoffset, not_false_eq_true, if_true]
      exact ⟨trivial, ⟨cs, act, h, rfl⟩, Nat.le_succ _⟩
  | flush clock =>
    obtain ⟨log, hrun, -, -, -, hok⟩ := flush_spec h clock
    simp only [LogOp.step, LogOp.exec, EStateM.run_bind, hrun, EStateM.run_pure, LogOp.spec]
    exact ⟨trivial, ⟨cs, act, hok, rfl⟩, Nat.le_succ _⟩
  | truncateSuffix newNext =>
    by_cases hin : newNext < (cs.flatten ++ act).length
    · obtain ⟨log, ops, cs', act', hrun, hok, hflat, -⟩ := truncateSuffix_spec hc h hin
      simp only [LogOp.step, LogOp.exec, EStateM.run_bind, hrun, EStateM.run_pure, LogOp.spec]
      refine ⟨trivial, ⟨cs', act', hok, hflat⟩, ?_⟩
      rw [List.length_take]
      omega
    · have hrun := truncateSuffix_past h (n := newNext) (by omega)
      simp only [LogOp.step, LogOp.exec, EStateM.run_bind, hrun, EStateM.run_pure, LogOp.spec]
      rw [List.take_of_length_le (by omega)]
      exact ⟨trivial, ⟨cs, act, h, rfl⟩, Nat.le_succ _⟩
  | reopen clock =>
    obtain ⟨log, fs', hrun, hok⟩ := openDir_spec hc h.healthy h.crashDir clock
    rw [← h.config_eq] at hrun
    simp only [LogOp.step, LogOp.exec, EStateM.run_bind, MethodM.run_self, MethodM.run_onFs hrun,
      MethodM.run_modifySelf, EStateM.run_pure, LogOp.spec]
    exact ⟨trivial, ⟨cs, act, hok, rfl⟩, Nat.le_succ _⟩

/-- A log from which every run replies as the list `rs` does, and afterwards reads as the list
it has become; `u64` offsets leave room for `2 ^ 64` records in all. -/
def Refines (crc : List UInt8 → UInt32) (config : LogConfig) (s : Log × Fs) (rs : List Record) :
    Prop :=
  ∀ ops : List LogOp, rs.length + ops.length ≤ 2 ^ 64 →
    (runOps (LogOp.step crc) ops s).1 = (runOps (LogOp.spec config) ops rs).1 ∧
    (runOps (LogOp.step crc) ops s).2.1.startOffset = 0 ∧
    (runOps (LogOp.step crc) ops s).2.1.nextOffset =
      (runOps (LogOp.spec config) ops rs).2.length ∧
    ReadsOf crc (runOps (LogOp.step crc) ops s).2 (runOps (LogOp.spec config) ops rs).2

theorem Represents.refines (hc : config.Valid) {s : Log × Fs} {rs : List Record}
    (h : Represents crc config s rs) : Refines crc config s rs := by
  intro ops hroom
  obtain ⟨hreplies, hend, -⟩ := (step_refines hc).run ops (n := 0) ⟨h, by omega⟩
  exact ⟨hreplies, hend.startOffset_eq, hend.nextOffset_eq, hend.reads hc⟩

/-- A log opened on an empty directory refines the empty list. -/
theorem log_refines_list (crc : List UInt8 → UInt32) {config : LogConfig}
    (hconfig : config.validate = .ok ()) (clock : Clock) :
    ∃ log fs, (Log.openDir crc config clock).run ⟨Dir.empty, [], []⟩ = .ok log fs ∧
      Refines crc config (log, fs) [] := by
  have hc := config.validate_eq_ok_iff.mp hconfig
  obtain ⟨log, fs, hrun, hok⟩ := openDir_empty crc hc clock
  exact ⟨log, fs, hrun, Represents.refines hc ⟨[], [], hok, rfl⟩⟩

/-- The smallest segments a valid configuration allows. -/
def smallConfig : LogConfig := ⟨1024, 64, 1024, .os⟩

theorem log_refines_list_smallConfig :
    ∃ log fs, (Log.openDir (fun _ => 0) smallConfig ⟨0, 0⟩).run ⟨Dir.empty, [], []⟩ = .ok log fs ∧
      Refines (fun _ => 0) smallConfig (log, fs) [] :=
  log_refines_list (fun _ => 0) rfl ⟨0, 0⟩

end Replog.Storage
